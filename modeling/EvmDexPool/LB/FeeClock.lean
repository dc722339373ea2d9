import EvmDexPool.LB.Events

/-!
# The variable-fee clock

On chain an operation (a swap through some bins, or a mint that pays composition fees) runs
`updateReferences` once, on the state before it, then `updateVolatilityAccumulator` for every bin it
goes through, and stamps `timeOfLastUpdate`. `FeeClock` is that contract. The replay sees one log
per bin and runs `update_references` for each: from the second log of an operation on, no time has
passed since `time_of_last_update`, so with a positive filter period the call changes nothing
(`updateReferences_same_time`), and the replay stays with the contract (`replay_follows_clock`).
-/

namespace EvmDexPool.LB

/-! ## The pair contract -/

structure FeeClock where
  filterPeriod : Nat
  decayPeriod : Nat
  reductionFactor : Nat
  maxVolatilityAccumulator : Nat
  activeId : Nat
  volatilityAccumulator : Nat
  volatilityReference : Nat
  idReference : Nat
  timeOfLastUpdate : Nat
deriving DecidableEq, Repr

/-- An operation that moves the fee clock. -/
inductive Operation
  | swap (first : Nat) (rest : List Nat)
  | mintWithCompositionFees
deriving DecidableEq, Repr

namespace FeeClock
variable (c : FeeClock)

/-- `PairParameterHelper.updateReferences`. -/
def updateReferences (t : Nat) : FeeClock :=
  if c.filterPeriod ≤ t - c.timeOfLastUpdate then
    { c with
      idReference := c.activeId
      volatilityReference :=
        if t - c.timeOfLastUpdate < c.decayPeriod then
          c.volatilityAccumulator * c.reductionFactor / 10000 % 2 ^ 32
        else 0 }
  else c

/-- `PairParameterHelper.updateVolatilityAccumulator`. -/
def updateVolatilityAccumulator (id : Nat) : FeeClock :=
  let deltaId := (id - c.idReference) + (c.idReference - id)
  { c with volatilityAccumulator := min (c.volatilityReference + deltaId * 10000) c.maxVolatilityAccumulator }

/-- A swap leaves one bin for the next. -/
def crossBin (id : Nat) : FeeClock := { c.updateVolatilityAccumulator id with activeId := id }

/-- One operation at time `t`. -/
def operate (t : Nat) : Operation → FeeClock
  | .swap first rest =>
    { (first :: rest).foldl crossBin (c.updateReferences t) with timeOfLastUpdate := t }
  | .mintWithCompositionFees =>
    { (c.updateReferences t).updateVolatilityAccumulator c.activeId with timeOfLastUpdate := t }

def run (ops : List (Nat × Operation)) : FeeClock := ops.foldl (fun c o => c.operate o.1 o.2) c

end FeeClock

/-! ## What the contract logs -/

/-- A `Swap` log, of either form, for bin `id` at time `t` with the accumulator `acc` after it. -/
inductive SwapRecord (t id acc : Nat) (l : Log) : Prop
  | v21 (amountsIn amountsOut : B256) (h : l.payload = .event (.lb (.swap id amountsIn amountsOut acc)))
      (ht : l.blockTimestamp = some t)
  | v20 (swapForY : Bool) (amountIn amountOut : Nat) (hid : id < 2 ^ 32) (hin : amountIn < 2 ^ 128)
      (hout : amountOut < 2 ^ 128)
      (h : l.payload = .event (.lb (.swapV20 id swapForY amountIn amountOut acc)))
      (ht : l.blockTimestamp = some t)

/-- The logs of a swap through `bins`, each with the accumulator the contract has there. -/
inductive SwapRecords (t : Nat) : FeeClock → List Nat → List Log → Prop
  | nil (c : FeeClock) : SwapRecords t c [] []
  | cons {c : FeeClock} {id : Nat} {ids : List Nat} {l : Log} {ls : List Log}
      (hl : SwapRecord t id (c.crossBin id).volatilityAccumulator l)
      (hls : SwapRecords t (c.crossBin id) ids ls) : SwapRecords t c (id :: ids) (l :: ls)

/-- The logs of one operation. -/
inductive Logged (t : Nat) (c : FeeClock) : Operation → List Log → Prop
  | swap {first : Nat} {rest : List Nat} {ls : List Log}
      (h : SwapRecords t (c.updateReferences t) (first :: rest) ls) : Logged t c (.swap first rest) ls
  | mint {l : Log} (h : l.payload = .event (.lb (.compositionFees c.activeId)))
      (ht : l.blockTimestamp = some t) : Logged t c .mintWithCompositionFees [l]

/-- The logs of a sequence of operations, in order. -/
inductive LoggedRun : FeeClock → List (Nat × Operation) → List Log → Prop
  | nil (c : FeeClock) : LoggedRun c [] []
  | cons {c : FeeClock} {t : Nat} {op : Operation} {ops : List (Nat × Operation)} {ls ls' : List Log}
      (h : Logged t c op ls) (h' : LoggedRun (c.operate t op) ops ls') :
      LoggedRun c ((t, op) :: ops) (ls ++ ls')

/-! ## The replay -/

/-- The fee clock of a pool. -/
def LBPool.clock (p : LBPool) : FeeClock where
  filterPeriod := p.filterPeriod
  decayPeriod := p.decayPeriod
  reductionFactor := p.reductionFactor
  maxVolatilityAccumulator := p.maxVolatilityAccumulator
  activeId := p.activeId
  volatilityAccumulator := p.volatilityAccumulator
  volatilityReference := p.volatilityReference
  idReference := p.idReference
  timeOfLastUpdate := p.timeOfLastUpdate

namespace FeeClock
variable {c : FeeClock}

theorem updateReferences_same_time (h : 0 < c.filterPeriod) : c.updateReferences c.timeOfLastUpdate = c := by
  unfold updateReferences
  rw [if_neg (by omega)]

theorem crossBin_le (id : Nat) : (c.crossBin id).volatilityAccumulator ≤ c.maxVolatilityAccumulator :=
  Nat.min_le_right _ _

theorem updateReferences_filterPeriod (t : Nat) : (c.updateReferences t).filterPeriod = c.filterPeriod := by
  unfold updateReferences; split <;> rfl

theorem updateReferences_max (t : Nat) :
    (c.updateReferences t).maxVolatilityAccumulator = c.maxVolatilityAccumulator := by
  unfold updateReferences; split <;> rfl

theorem foldl_crossBin_params (ids : List Nat) :
    (ids.foldl crossBin c).filterPeriod = c.filterPeriod ∧
      (ids.foldl crossBin c).maxVolatilityAccumulator = c.maxVolatilityAccumulator := by
  induction ids generalizing c with
  | nil => exact ⟨rfl, rfl⟩
  | cons id ids ih => exact ih (c := c.crossBin id)

/-- No operation changes the parameters. -/
theorem operate_params (t : Nat) (op : Operation) :
    (c.operate t op).filterPeriod = c.filterPeriod ∧
      (c.operate t op).maxVolatilityAccumulator = c.maxVolatilityAccumulator := by
  cases op with
  | swap first rest =>
    have h := foldl_crossBin_params (c := c.updateReferences t) (first :: rest)
    rw [updateReferences_filterPeriod, updateReferences_max] at h
    exact h
  | mintWithCompositionFees => exact ⟨updateReferences_filterPeriod t, updateReferences_max t⟩

end FeeClock

namespace LBPool
variable {p : LBPool}

theorem clock_updateBin (id x y : Nat) : (p.updateBin id x y).clock = p.clock := by
  unfold updateBin; split <;> rfl

theorem clock_moveReferences (ts : Nat) : (p.moveReferences ts).clock = p.clock.updateReferences ts := by
  unfold moveReferences updateReferences FeeClock.updateReferences clock
  dsimp only
  split <;> rfl

theorem log_timestamp_of_some {l : Log} {now t : Nat} (h : l.blockTimestamp = some t) (ht : t ≠ 0) :
    l.timestamp now = t := by
  simp [Log.timestamp, h, ht]

/-- What one swap log does to the clock. -/
theorem clock_applySwapRecord {now t id acc : Nat} {l : Log} (h : SwapRecord t id acc l) (ht : t ≠ 0)
    (hacc : acc < 2 ^ 32) :
    (p.applyLog now l).1.clock =
      { p.clock.updateReferences t with activeId := id, volatilityAccumulator := acc, timeOfLastUpdate := t } := by
  cases h with
  | v21 amountsIn amountsOut h hts =>
    rw [applyLog, h]
    simp only [applyEvent, log_timestamp_of_some hts ht, applySwap]
    rw [← clock_updateBin (p := p) id, ← clock_moveReferences]
    rfl
  | v20 swapForY amountIn amountOut hid hin hout h hts =>
    rw [applyLog, h]
    simp only [applyEvent, log_timestamp_of_some hts ht, applySwapV20, Fixed.narrow_of_lt hid,
      Fixed.narrow_of_lt hin, Fixed.narrow_of_lt hout, Fixed.narrow_of_lt hacc]
    split <;> (rw [← clock_updateBin (p := p) id, ← clock_moveReferences]; rfl)

/-- A swap's logs, once its references have been updated: no log but the first moves them. -/
theorem clock_replay_swap {t : Nat} (ht : t ≠ 0) {c : FeeClock} {ids : List Nat} {ls : List Log}
    (h : SwapRecords t c ids ls) : ∀ {p : LBPool} {calls : List (Nat × Log)}, calls.map Prod.snd = ls →
      p.clock = { c with timeOfLastUpdate := t } → 0 < c.filterPeriod → c.maxVolatilityAccumulator < 2 ^ 32 →
      (p.replay calls).clock = { ids.foldl FeeClock.crossBin c with timeOfLastUpdate := t } := by
  induction h with
  | nil c =>
    intro p calls hcalls hp _ _
    rw [List.map_eq_nil_iff] at hcalls
    subst hcalls
    exact hp
  | @cons c id ids l ls hl hls ih =>
    intro p calls hcalls hp hf hm
    obtain ⟨⟨now, l'⟩, rest, rfl, rfl, hrest⟩ := List.map_eq_cons_iff.1 hcalls
    change (replay (p.applyLog now l').1 rest).clock = _
    refine ih hrest ?_ hf hm
    rw [clock_applySwapRecord hl ht ((FeeClock.crossBin_le id).trans_lt hm), hp]
    have hsame := FeeClock.updateReferences_same_time (c := { c with timeOfLastUpdate := t }) hf
    simp only at hsame
    rw [hsame]
    rfl

/-- **One operation**: replaying its logs does to the clock what the contract does. -/
theorem clock_replay_operation {t : Nat} (ht : t ≠ 0) {op : Operation} {ls : List Log}
    {calls : List (Nat × Log)} (hcalls : calls.map Prod.snd = ls) (hf : 0 < p.filterPeriod)
    (hm : p.maxVolatilityAccumulator < 2 ^ 32) (h : Logged t p.clock op ls) :
    (p.replay calls).clock = p.clock.operate t op := by
  cases h with
  | @swap first rest _ h =>
    cases h with
    | @cons _ _ _ l ls hl hls =>
      obtain ⟨⟨now, l'⟩, tail, rfl, rfl, htail⟩ := List.map_eq_cons_iff.1 hcalls
      have hm' : (p.clock.updateReferences t).maxVolatilityAccumulator < 2 ^ 32 := by
        rwa [FeeClock.updateReferences_max]
      have hf' : 0 < (p.clock.updateReferences t).filterPeriod := by
        rwa [FeeClock.updateReferences_filterPeriod]
      -- the first log runs the references on the state before the operation
      change (replay (p.applyLog now l').1 tail).clock = _
      refine clock_replay_swap ht hls htail ?_ hf' hm'
      rw [clock_applySwapRecord hl ht ((FeeClock.crossBin_le first).trans_lt hm')]
      rfl
  | @mint l h hts =>
    obtain ⟨⟨now, l'⟩, tail, rfl, rfl, htail⟩ := List.map_eq_cons_iff.1 hcalls
    rw [List.map_eq_nil_iff] at htail
    subst htail
    simp only [replay, List.foldl_cons, List.foldl_nil]
    rw [applyLog, h]
    simp only [applyEvent, log_timestamp_of_some hts ht, applyCompositionFees]
    rw [FeeClock.operate, ← clock_moveReferences]
    rfl

/-- **The replay follows the contract's fee clock**: whatever operations run, at whatever nonzero
times, several of them at the same one or not, and whichever form their swap logs have. -/
theorem replay_follows_clock (ops : List (Nat × Operation)) (hops : ∀ o ∈ ops, o.1 ≠ 0) :
    ∀ (p : LBPool) (calls : List (Nat × Log)), 0 < p.filterPeriod → p.maxVolatilityAccumulator < 2 ^ 32 →
      LoggedRun p.clock ops (calls.map Prod.snd) → (p.replay calls).clock = p.clock.run ops := by
  induction ops with
  | nil =>
    intro p calls _ _ h
    generalize hls : calls.map Prod.snd = ls at h
    cases h
    rw [List.map_eq_nil_iff] at hls
    subst hls
    rfl
  | cons o ops ih =>
    intro p calls hf hm h
    generalize hls : calls.map Prod.snd = ls at h
    cases h with
    | @cons _ t op _ ls ls' h h' =>
      obtain ⟨calls₁, calls₂, rfl, h₁, h₂⟩ := List.map_eq_append_iff.1 hls
      have hop := clock_replay_operation (hops (t, op) List.mem_cons_self) h₁ hf hm h
      have hpar := FeeClock.operate_params (c := p.clock) t op
      rw [← hop] at h' hpar
      have hrest := ih (fun o ho => hops o (List.mem_cons_of_mem _ ho)) (p.replay calls₁) calls₂
        (hf.trans_eq hpar.1.symm) (hpar.2.trans_lt hm) (h₂ ▸ h')
      rw [replay, List.foldl_append, ← replay, ← replay, hrest, hop]
      rfl

/-- A log of a block at time 40 with nothing but its event. -/
def logAt40 (e : LBEvent) : Log := ⟨0, .event (.lb e), none, none, none, none, some 40, false⟩

/-- A swap over two bins and a mint in the same block. -/
theorem replay_follows_clock_block :
    let p := { oneBinPool 1 with activeId := 3, idReference := 3 }
    (p.replay [(0, logAt40 (.swap 3 5 0 0)), (0, logAt40 (.swapV20 2 true 5 1 10000)),
      (0, logAt40 (.compositionFees 2))]).clock =
      p.clock.run [(40, .swap 3 [2]), (40, .mintWithCompositionFees)] := by
  intro p
  refine replay_follows_clock _ (by decide) p _ (by decide) (by decide) ?_
  change LoggedRun _ _ ([logAt40 (.swap 3 5 0 0), logAt40 (.swapV20 2 true 5 1 10000)] ++
    ([logAt40 (.compositionFees 2)] ++ []))
  refine .cons (.swap (.cons (.v21 5 0 (by decide +kernel) rfl) (.cons ?_ (.nil _)))) (.cons (.mint rfl rfl) (.nil _))
  exact .v20 true 5 1 (by decide) (by decide) (by decide) (by decide +kernel) rfl

end LBPool

end EvmDexPool.LB

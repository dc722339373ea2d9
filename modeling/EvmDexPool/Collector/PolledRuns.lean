import EvmDexPool.Collector.Cursor
import EvmDexPool.Collector.Polling
import EvmDexPool.V2.Fetcher
import EvmDexPool.V3.ContractHistory

/-!
# Polled pools and what they stand for

A registered pool stands for something on the chain, which goes on from block to block as the pool's logs say. Over the turns
of an updater that polls, the pools all along stand for what is there after the block of the cursor (`Collector.polled_shows`).
A V3 pool stands for its contract, and a constant-product pair for its pair, so that at each cursor they quote what these would
pay (`polled_v3`, `polled_v2`).

The fee reader runs beside the updater and writes to pools whose fee is not announced; those are left to `Collector.FeeReader`,
and the pools that need block times to `Collector.PolledPairs`.
-/

namespace EvmDexPool

open Std Replay

/-- A pool's logs in the blocks after `m` up to `n`, in chain order. -/
def Chain.ownBetween (c : Chain) (a : Address) (t : PoolType) (m n : Nat) : List Log :=
  c.logs.filter fun l => l.ownedBy a t ∧ m < l.block ∧ l.block ≤ n

theorem Chain.ownBetween_self (c : Chain) (a : Address) (t : PoolType) (n : Nat) : c.ownBetween a t n n = [] := by
  unfold ownBetween
  rw [List.filter_eq_nil_iff]
  intro l _ hl
  have := (of_decide_eq_true hl).2
  omega

theorem Chain.ownBetween_append (c : Chain) (a : Address) (t : PoolType) {m k n : Nat} (hmk : m ≤ k) (hkn : k ≤ n) :
    c.ownBetween a t m k ++ c.ownBetween a t k n = c.ownBetween a t m n := by
  unfold ownBetween
  apply filter_append_filter
  · refine c.block_sorted.imp fun {x y} hxy hx hy => ?_
    have hx := (of_decide_eq_true hx).2
    have hy := (of_decide_eq_true hy).2
    omega
  · intro l _
    rw [decide_eq_true_iff, decide_eq_true_iff, decide_eq_true_iff, ← and_or_left]
    refine and_congr_right fun _ => ?_
    omega
  · intro l _ hl
    have h1 := (of_decide_eq_true hl.1).2
    have h2 := (of_decide_eq_true hl.2).2
    omega

theorem PoolType.not_mem_of_not_concerns {t : PoolType} {l : Log} {x : Topic} (h : ¬t.concerns l) (hx : l.topic0 = some x) : x ∉ t.topics := by
  intro hmem
  apply h
  unfold concerns
  rw [hx]
  exact decide_eq_true hmem

/-- A query that asks for the type's topics has every log of the pool. -/
theorem Chain.owned_getLogs_eq (c : Chain) {addresses : List Address} {topics : List Topic} {a : Address} {t : PoolType}
    (ha : a ∈ addresses) (htopics : ∀ x ∈ t.topics, x ∈ topics) (m n : Nat) :
    (c.getLogs addresses topics (m + 1) n).filter (·.ownedBy a t) = c.ownBetween a t m n := by
  unfold Chain.getLogs Chain.ownBetween
  rw [List.filter_filter]
  refine List.filter_congr fun l _ => ?_
  have hfound : l.ownedBy a t → matchesFilter addresses topics l := by
    intro hown
    obtain ⟨hadd, htop⟩ := of_decide_eq_true hown
    obtain ⟨x, hx, hmem⟩ := (Option.any_eq_true _ _).1 htop
    unfold matchesFilter
    rw [decide_eq_true_iff]
    exact ⟨.inr (hadd ▸ ha), .inr ⟨x, htopics x (of_decide_eq_true hmem), hx⟩⟩
  cases hown : l.ownedBy a t with
  | false => simp
  | true => simp only [hfound hown, Nat.succ_le_iff, and_true, true_and, Bool.true_and]

/-- A pool's log as it gets it: those of Liquidity Book pools have their block's time filled in. -/
def PoolType.received (t : PoolType) (times : Nat → Option Nat) (l : Log) : Log :=
  l.fillBlockTimestamp (fun _ => t = .TraderJoeLB) times

theorem PoolType.map_received {t : PoolType} (ht : t ≠ .TraderJoeLB) (times : Nat → Option Nat) (ls : List Log) :
    ls.map (t.received times) = ls := by
  conv_rhs => rw [← List.map_id ls]
  refine List.map_congr_left fun l _ => ?_
  unfold received Log.fillBlockTimestamp
  rw [if_neg fun hand => ht (of_decide_eq_true hand.1)]
  rfl

/-- What the pools of a type at an address stand for: one that stands for what is there after a block stands, with its logs of
the next block, for what is there after that. Logs that are not of the type's events pass such a pool by. `Dates` says which
block times are good enough for it. -/
structure Mirroring (π : Type) [PoolInterface π] (c : Chain) (a : Address) (t : PoolType) where
  Shows : Nat → π → Prop
  Dates : (Nat → Option Nat) → Prop
  ofType : ∀ {n p}, Shows n p → PoolInterface.poolType p = t
  next : ∀ {n p} (clock : Log → Nat) {times : Nat → Option Nat}, Dates times → Shows n p →
    Shows (n + 1) (((c.ownBetween a t n (n + 1)).map (t.received times)).foldl (fun p l => stepLog clock l p) p)
  passes : ∀ {p : π} {l : Log} (now : Nat), PoolInterface.poolType p = t → ¬t.concerns l → (PoolInterface.applyLog now l p).1 = p

namespace Mirroring
variable {π : Type} [PoolInterface π] {c : Chain} {a : Address} {t : PoolType} (M : Mirroring π c a t)

theorem through {m n : Nat} {p : π} (clock : Log → Nat) {times : Nat → Option Nat} (hdates : M.Dates times) (hmn : m ≤ n)
    (hp : M.Shows m p) : M.Shows n (((c.ownBetween a t m n).map (t.received times)).foldl (fun p l => stepLog clock l p) p) := by
  induction hmn with
  | refl =>
    rw [c.ownBetween_self]
    exact hp
  | @step n hmn ih =>
    rw [← c.ownBetween_append a t hmn (Nat.le_succ n), List.map_append, List.foldl_append]
    exact M.next clock hdates ih

include M in
/-- Of the logs at its address a pool is changed by its own. -/
theorem foldl_own (clock : Log → Nat) {p : π} (hp : PoolInterface.poolType p = t) (ls : List Log) :
    (ls.filter fun l => l.address = a).foldl (fun p l => stepLog clock l p) p =
      (ls.filter (·.ownedBy a t)).foldl (fun p l => stepLog clock l p) p := by
  induction ls generalizing p with
  | nil => rfl
  | cons l ls ih =>
    have hstep : PoolInterface.poolType (stepLog clock l p) = t := (PoolInterface.poolType_applyLog (clock l) l p).trans hp
    by_cases ha : l.address = a
    · rw [List.filter_cons_of_pos (by simpa using ha), List.foldl_cons]
      by_cases hown : t.concerns l
      · rw [List.filter_cons_of_pos (by simp [Log.ownedBy, ha, hown]), List.foldl_cons]
        exact ih hstep
      · have hpass : stepLog clock l p = p := M.passes (clock l) hp hown
        rw [List.filter_cons_of_neg (by simp [Log.ownedBy, hown]), hpass]
        exact ih hp
    · rw [List.filter_cons_of_neg (by simpa using ha), List.filter_cons_of_neg (by simp [Log.ownedBy, ha])]
      exact ih hp

/-- What is a pool's own of what a batch hands out is its own of the logs, as it gets them. -/
theorem filter_enriched {r : PoolRegistry π} {p : π} (hp : r.getPool a = some p) (htype : PoolInterface.poolType p = t)
    (times : Nat → Option Nat) (ls : List Log) :
    (r.enrichIfLbPoolsPresent times ls).filter (·.ownedBy a t) = (ls.filter (·.ownedBy a t)).map (t.received times) := by
  have hlb : a ∈ r.getAddressesByType .TraderJoeLB ↔ t = .TraderJoeLB := by
    rw [PoolRegistry.mem_getAddressesByType, hp, ← htype]
    constructor
    · rintro ⟨q, hq, htype⟩
      rwa [Option.some.inj hq]
    · intro htype
      exact ⟨p, rfl, htype⟩
  unfold PoolRegistry.enrichIfLbPoolsPresent
  rw [List.filter_map]
  simp only [Function.comp_def, ownedBy_fillBlockTimestamp]
  refine List.map_congr_left fun l hl => ?_
  have hl : l.address = a := (of_decide_eq_true (List.mem_filter.1 hl).2).1
  unfold PoolType.received Log.fillBlockTimestamp
  simp only [hl, hlb]

/-- **A batch takes a pool on**: with the logs of the blocks it covers it stands for what is there after the last of them. -/
theorem replayed {r : PoolRegistry π} {p : π} {m n : Nat} {topics : List Topic} (hp : r.getPool a = some p) (hshows : M.Shows m p)
    (htopics : ∀ x ∈ t.topics, x ∈ topics) (clock : Log → Nat) {times : Nat → Option Nat} (hdates : M.Dates times) (hmn : m ≤ n) :
    ∃ q, (r.replayed clock (r.enrichIfLbPoolsPresent times (c.getLogs r.getAllAddresses topics (m + 1) n))).getPool a = some q ∧
      M.Shows n q := by
  have ha : a ∈ r.getAllAddresses := PoolRegistry.mem_of_getPool hp
  have hlookup := lookup_replay (·.address) (stepLog clock) r.byAddress
    (r.enrichIfLbPoolsPresent times (c.getLogs r.getAllAddresses topics (m + 1) n)) a
  refine ⟨_, hlookup.trans (congrArg (Option.map _) hp), ?_⟩
  unfold own
  rw [M.foldl_own clock (M.ofType hshows), filter_enriched hp (M.ofType hshows), c.owned_getLogs_eq ha htopics]
  exact M.through clock hdates hmn hshows

end Mirroring

/-! ## The turns of an updater -/

/-- What is planned is planned from the cursor on. -/
theorem LatestBlockSource.planned_tiles {src : LatestBlockSource} {cursor latest : Nat} {ranges : List (Nat × Nat × Bool)}
    (hnone : src.batches = []) (h : src.planned cursor latest = .ok ranges) :
    ranges = [] ∨ ∃ last, Tiles cursor last (ranges.map fun range => (range.1, range.2.1)) := by
  unfold planned at h
  rw [hnone] at h
  dsimp only at h
  split at h
  · by_cases hle : cursor + 1 ≤ latest
    · have hfits := planFits_of_plan (Nat.succ_pos _) hle h
      have hlatest : latest < 2 ^ 64 := by
        have hquot : latest - (cursor + 1) < (latest - (cursor + 1)) / src.maxBlocksPerBatch * src.maxBlocksPerBatch +
            src.maxBlocksPerBatch := Nat.lt_div_mul_add hfits.1
        have hword : cursor + 1 + ((latest - (cursor + 1)) / src.maxBlocksPerBatch + 1) * src.maxBlocksPerBatch < 2 ^ 64 := hfits.2
        rw [Nat.add_mul, Nat.one_mul] at hword
        omega
      have hplan := planBatches_eq hlatest (latest + 1) (latest + 1) hle hfits (by omega) (by omega)
      rw [h] at hplan
      refine .inr ⟨latest, ?_⟩
      rw [Except.ok.inj hplan, List.map_map]
      change Tiles _ _ (List.map id _)
      rw [List.map_id]
      exact catchupLoop_tiles hfits.1 hlatest _ _ hle (by omega)
    · rw [planBatches, if_neg hle] at h
      exact .inl (Except.ok.inj h).symm
  · cases h

/-- A turn that goes through leaves all as it is, or replays the logs of the range after the cursor. -/
theorem UnifiedPoolUpdater.batch_ok {π : Type} [PoolInterface π] {c : Chain} {r r' : PoolRegistry π} {u u' : UnifiedPoolUpdater}
    {env : Env} {latest : Nat} (hplanned : u.source.batches = [] ∨
      ∃ last, Tiles r.lastProcessedBlock last (u.source.batches.map fun range => (range.1, range.2.1)))
    (h : u.batch c env latest r = (r', some u')) :
    (r' = r ∧ u' = u) ∨ ∃ range rest last, u.source.planned r.lastProcessedBlock latest = .ok (range :: rest) ∧
      range.1 = r.lastProcessedBlock + 1 ∧ range.1 ≤ range.2.1 ∧
      Tiles range.2.1 last (rest.map fun range => (range.1, range.2.1)) ∧
      u' = { u with source := { u.source with batches := rest } } ∧
      r' = (r.replayed env.clock (u.source.fetchBatch c env r range).events).setLastProcessedBlock range.2.1 := by
  unfold UnifiedPoolUpdater.batch at h
  cases hplan : u.source.planned r.lastProcessedBlock latest with
  | error e =>
    rw [hplan] at h
    cases h
  | ok ranges =>
    rw [hplan] at h
    have htiles : ranges = [] ∨ ∃ last, Tiles r.lastProcessedBlock last (ranges.map fun range => (range.1, range.2.1)) := by
      by_cases hnone : u.source.batches = []
      · exact LatestBlockSource.planned_tiles hnone hplan
      · have hsame : u.source.planned r.lastProcessedBlock latest = .ok u.source.batches := by
          unfold LatestBlockSource.planned
          split
          · exact absurd ‹_› hnone
          · rfl
        rw [hplan] at hsame
        rw [Except.ok.inj hsame]
        exact hplanned
    cases ranges with
    | nil =>
      cases h
      exact .inl ⟨rfl, rfl⟩
    | cons range rest =>
      dsimp only at h
      obtain ⟨last, hstart, hle, hrest⟩ := htiles.resolve_left (List.cons_ne_nil _ _)
      have hmode : (u.source.fetchBatch c env r range).processingMode ≠ .Pending := by
        unfold LatestBlockSource.fetchBatch
        dsimp only
        split <;> simp
      have hsendable : ∀ l ∈ (u.source.fetchBatch c env r range).events, Sendable u.eventProcessor l := by
        intro l hl
        obtain ⟨l', hl', rfl⟩ := List.mem_map.1 hl
        exact ((c.mined l' (List.mem_filter.1 hl').1).fillBlockTimestamp _ _).sendable _
      rcases hprocess : UnifiedPoolUpdater.process u.eventProcessor env (u.source.fetchBatch c env r range) r with ⟨r1, outcome⟩
      rw [hprocess] at h
      cases outcome with
      | error e => cases h
      | ok done =>
        cases h
        have hreportable := UnifiedPoolUpdater.reportable_of_process hsendable hmode (by rw [hprocess])
        have hreplayed := UnifiedPoolUpdater.process_eq hreportable hmode range.2.1 rfl
        rw [hprocess] at hreplayed
        exact .inr ⟨range, rest, last, rfl, hstart, hle, hrest, rfl, (Prod.ext_iff.1 hreplayed).1⟩

namespace Collector
variable {π : Type} [PoolInterface π] {c : Chain} {a : Address} {t : PoolType}

/-- The turns of the updater, each with what it meets and the header it polls. -/
def polled (c : Chain) (s : Collector π) (turns : List (Env × Nat)) : Collector π :=
  turns.foldl (fun s turn => s.step c (.batch turn.1 turn.2)) s

/-- The pool stands for what is there at the cursor, its logs are asked for, and what is planned goes on from the cursor. -/
structure OnCourse (M : Mirroring π c a t) (r : PoolRegistry π) (u : UnifiedPoolUpdater) : Prop where
  shows : ∃ p, r.getPool a = some p ∧ M.Shows r.lastProcessedBlock p
  topics : ∀ x ∈ t.topics, x ∈ u.source.topics
  planned : u.source.batches = [] ∨
    ∃ last, Tiles r.lastProcessedBlock last (u.source.batches.map fun range => (range.1, range.2.1))

/-- One turn, as long as nothing has panicked. -/
theorem OnCourse.batch {M : Mirroring π c a t} {r r' : PoolRegistry π} {u u' : UnifiedPoolUpdater} {env : Env} {latest : Nat}
    (h : OnCourse M r u) (hdates : M.Dates env.times) (hbatch : u.batch c env latest r = (r', some u')) : OnCourse M r' u' := by
  rcases UnifiedPoolUpdater.batch_ok h.planned hbatch with ⟨rfl, rfl⟩ | ⟨range, rest, last, -, hstart, hle, hrest, rfl, rfl⟩
  · exact h
  · obtain ⟨p, hp, hshows⟩ := h.shows
    have hshown := M.replayed hp hshows h.topics env.clock hdates (show r.lastProcessedBlock ≤ range.2.1 by omega)
    rw [← hstart] at hshown
    exact ⟨hshown, h.topics, .inr ⟨last, hrest⟩⟩

theorem polled_of_none {s : Collector π} (hs : s.updater = none) (turns : List (Env × Nat)) : polled c s turns = s := by
  induction turns with
  | nil => rfl
  | cons turn turns ih =>
    have hstep : s.step c (.batch turn.1 turn.2) = s := by
      unfold step
      dsimp only
      rw [hs]
    unfold polled at ih ⊢
    rw [List.foldl_cons, hstep]
    exact ih

/-- **A run of turns**: as long as the updater runs, the pool stands for what is there at the cursor. -/
theorem polled_shows (M : Mirroring π c a t) {r r' : PoolRegistry π} {u u' : UnifiedPoolUpdater} (h : OnCourse M r u)
    {turns : List (Env × Nat)} (hdates : ∀ turn ∈ turns, M.Dates turn.1.times) (hrun : polled c ⟨r, some u⟩ turns = ⟨r', some u'⟩) :
    OnCourse M r' u' := by
  induction turns generalizing r u with
  | nil =>
    cases hrun
    exact h
  | cons turn turns ih =>
    change polled c ((⟨r, some u⟩ : Collector π).step c (.batch turn.1 turn.2)) turns = _ at hrun
    rcases hbatch : u.batch c turn.1 turn.2 r with ⟨r1, u1⟩
    have hstep : (⟨r, some u⟩ : Collector π).step c (.batch turn.1 turn.2) = ⟨r1, u1⟩ := by
      unfold step
      dsimp only
      rw [hbatch]
    rw [hstep] at hrun
    cases u1 with
    | none =>
      rw [polled_of_none rfl] at hrun
      cases hrun
    | some u1 =>
      have hcourse := h.batch (hdates turn List.mem_cons_self) hbatch
      exact ih hcourse (fun turn' hturn => hdates turn' (List.mem_cons_of_mem turn hturn)) hrun

/-- The turns of an updater that has just been started. -/
def polledFrom (c : Chain) (r : PoolRegistry π) (swapEventTx : Bool) (startBlock maxBlocksPerBatch : Nat) (turns : List (Env × Nat)) :
    Collector π :=
  polled c ((⟨r, none⟩ : Collector π).step c (.start swapEventTx startBlock maxBlocksPerBatch)) turns

/-- A new updater is on course for every pool that stands for what is there at the block it starts at. -/
theorem OnCourse.new (M : Mirroring π c a t) {r : PoolRegistry π} {p : π} {startBlock : Nat} (hp : r.getPool a = some p)
    (hshows : M.Shows (UnifiedPoolUpdater.startCursor r.lastProcessedBlock startBlock) p) (htopics : ∀ x ∈ t.topics, x ∈ r.topics)
    (swapEventTx : Bool) (maxBlocksPerBatch : Nat) :
    OnCourse M (UnifiedPoolUpdater.new r swapEventTx startBlock maxBlocksPerBatch).1
      (UnifiedPoolUpdater.new r swapEventTx startBlock maxBlocksPerBatch).2 :=
  ⟨⟨p, hp, hshows⟩, htopics, .inl rfl⟩

end Collector

/-! ## V3 pools -/

namespace V3

/-- What the contract of the pool at `a` is after each block, the chain having what it does in the next block as its logs. -/
structure OnChain (c : Chain) (a : Address) where
  after : Nat → Contract.Pool
  does : ∀ n (clock : Log → Nat),
    Contract.Pool.History (after n) ((c.ownBetween a .UniswapV3 n (n + 1)).map fun l => (clock l, l)) (after (n + 1))

theorem event_topic_mem (e : V3Event) : e.topic ∈ UniswapV3Pool.topics := by
  unfold UniswapV3Pool.topics V3Event.topic
  cases e <;> simp

/-- A log of another event is no matter to a pool. -/
theorem applyLog_other {p : UniswapV3Pool} {l : Log} (now : Nat) (h : ¬PoolType.UniswapV3.concerns l) : (p.applyLog now l).1 = p := by
  have hother : ∀ t, l.topic0 = some t → t ∉ UniswapV3Pool.topics := fun _ => PoolType.not_mem_of_not_concerns h
  unfold UniswapV3Pool.applyLog
  cases hpayload : l.payload with
  | event e =>
    cases e with
    | v3 e =>
      have htopic : l.topic0 = some e.topic := by
        unfold Log.topic0
        rw [hpayload]
        rfl
      exact absurd (event_topic_mem e) (hother _ htopic)
    | v2 | erc4626 | lb => rfl
  | raw t err =>
    have htopic : l.topic0 = some t := by
      unfold Log.topic0
      rw [hpayload]
    have hnot := hother t htopic
    have hplugin : ¬(t = .integralPluginConfig ∨ t = .integralPlugin) := by
      rintro (rfl | rfl) <;> exact hnot (by decide)
    dsimp only
    rw [if_neg hplugin, if_neg hnot]
  | anonymous => rfl

theorem foldl_stepPool (clock : Log → Nat) (ls : List Log) (q : UniswapV3Pool) :
    ls.foldl (fun p l => EvmDexPool.stepLog clock l p) (Pool.v3 q) = .v3 (replayLogs q (ls.map fun l => (clock l, l))) := by
  induction ls generalizing q with
  | nil => rfl
  | cons l ls ih => exact ih (q.applyLog (clock l) l).1

/-- A V3 pool stands for its contract. -/
def OnChain.mirroring {c : Chain} {a : Address} (w : OnChain c a) : Mirroring Pool c a .UniswapV3 where
  Shows n p := ∃ q, p = .v3 q ∧ Tracks q (w.after n) ∧ (w.after n).Sound
  Dates _ := True
  ofType := by
    rintro n p ⟨q, rfl, -⟩
    rfl
  next := by
    rintro n p clock times - ⟨q, rfl, htracks, hsound⟩
    rw [PoolType.map_received (by decide), foldl_stepPool]
    exact ⟨_, rfl, (htracks.history hsound (w.does n clock)).2, hsound.history (w.does n clock)⟩
  passes := by
    intro p l now htype hother
    cases p with
    | v3 q => exact congrArg Pool.v3 (applyLog_other now hother)
    | v2 | verioIP | lb => cases htype

end V3

/-! ## Constant-product pairs -/

namespace V2

/-- What a pair's logs make of its reserves. -/
inductive Syncs : Nat × Nat → List Log → Nat × Nat → Prop
  | nil (reserves : Nat × Nat) : Syncs reserves [] reserves
  | swap {reserves reserves' : Nat × Nat} {l : Log} {ls : List Log} (hlog : l.payload = .event (.v2 .swap))
      (hrest : Syncs reserves ls reserves') : Syncs reserves (l :: ls) reserves'
  | sync {reserves next reserves' : Nat × Nat} {l : Log} {ls : List Log}
      (hlog : l.payload = .event (.v2 (.sync next.1 next.2)) ∨ l.payload = .event (.v2 (.syncUint256 next.1 next.2)))
      (hrest : Syncs next ls reserves') : Syncs reserves (l :: ls) reserves'

/-- What the pair at `a` holds after each block, every change of it being synced by a log. -/
structure OnChain (c : Chain) (a : Address) where
  after : Nat → Nat × Nat
  syncs : ∀ n, Syncs (after n) (c.ownBetween a .UniswapV2 n (n + 1)) (after (n + 1))

theorem event_topic_mem (e : V2Event) : e.topic ∈ UniswapV2Pool.topics := by
  unfold UniswapV2Pool.topics V2Event.topic
  cases e <;> simp

theorem applyLog_other {p : UniswapV2Pool} {l : Log} (now : Nat) (h : ¬PoolType.UniswapV2.concerns l) : (p.applyLog now l).1 = p := by
  have hother : ∀ t, l.topic0 = some t → t ∉ UniswapV2Pool.topics := fun _ => PoolType.not_mem_of_not_concerns h
  unfold UniswapV2Pool.applyLog
  cases hpayload : l.payload with
  | event e =>
    cases e with
    | v2 e =>
      have htopic : l.topic0 = some e.topic := by
        unfold Log.topic0
        rw [hpayload]
        rfl
      exact absurd (event_topic_mem e) (hother _ htopic)
    | v3 | erc4626 | lb => rfl
  | raw t err =>
    dsimp only
    split <;> rfl
  | anonymous => rfl

/-- The pool that its reserves have gone on from. -/
def UniswapV2Pool.SameBut (p q : UniswapV2Pool) : Prop :=
  q.poolType = p.poolType ∧ q.token0 = p.token0 ∧ q.token1 = p.token1 ∧ q.fee = p.fee

theorem Syncs.replay {reserves reserves' : Nat × Nat} {ls : List Log} (h : Syncs reserves ls reserves') (clock : Log → Nat)
    {p q : UniswapV2Pool} (hq : p.SameBut q) (hreserves : (q.reserve0, q.reserve1) = reserves) :
    ∃ q', ls.foldl (fun p l => stepLog clock l p) (Pool.v2 q) = .v2 q' ∧ p.SameBut q' ∧ (q'.reserve0, q'.reserve1) = reserves' := by
  induction h generalizing q with
  | nil => exact ⟨q, rfl, hq, hreserves⟩
  | @swap reserves reserves' l ls hlog hrest ih =>
    have hstep : stepLog clock l (Pool.v2 q) = .v2 q := by
      change Pool.v2 (q.applyLog (clock l) l).1 = .v2 q
      unfold UniswapV2Pool.applyLog
      rw [hlog]
    rw [List.foldl_cons, hstep]
    exact ih hq hreserves
  | @sync reserves next reserves' l ls hlog hrest ih =>
    have hstep : stepLog clock l (Pool.v2 q) = .v2 (q.updateReserves (clock l) next.1 next.2) := by
      change Pool.v2 (q.applyLog (clock l) l).1 = _
      unfold UniswapV2Pool.applyLog
      rcases hlog with hlog | hlog <;> rw [hlog]
    rw [List.foldl_cons, hstep]
    exact ih hq rfl

/-- A pair in the registry stands for the pair on the chain. -/
def OnChain.mirroring {c : Chain} {a : Address} (w : OnChain c a) (p : UniswapV2Pool) : Mirroring Pool c a .UniswapV2 where
  Shows n x := ∃ q, x = .v2 q ∧ p.SameBut q ∧ (q.reserve0, q.reserve1) = w.after n
  Dates _ := True
  ofType := by
    rintro n x ⟨q, rfl, -⟩
    rfl
  next := by
    rintro n x clock times - ⟨q, rfl, hq, hreserves⟩
    rw [PoolType.map_received (by decide)]
    exact (w.syncs n).replay clock hq hreserves
  passes := by
    intro x l now htype hother
    cases x with
    | v2 q => exact congrArg Pool.v2 (applyLog_other now hother)
    | v3 | verioIP | lb => cases htype

end V2

/-! ## What the pools quote -/

/-- The pool quotes, of either kind and in either direction, what the contract's loop comes to. -/
def V3.UniswapV3Pool.QuotesOf (q : UniswapV3Pool) (d : Contract.Pool) : Prop :=
  ∀ (zeroForOne : Bool) (fuel amount x : Nat), 2 ^ 25 ≤ fuel → amount < 2 ^ 255 →
    (q.calculateExactInput fuel (if zeroForOne then q.token0 else q.token1) amount = .ok x ↔ d.Fills zeroForOne true amount x) ∧
      (q.calculateExactOutput fuel (if zeroForOne then q.token1 else q.token0) amount = .ok x ↔ d.Fills zeroForOne false amount x)

/-- The pool quotes what a pair with these reserves pays out. -/
def V2.UniswapV2Pool.QuotesOf (q : UniswapV2Pool) (reserves : Nat × Nat) : Prop :=
  ∀ amountIn, 0 < amountIn → amountIn < 2 ^ 112 →
    q.calculateOutput q.token0 amountIn = .ok (pairQuote reserves.1 reserves.2 q.fee amountIn) ∧
      q.calculateOutput q.token1 amountIn = .ok (pairQuote reserves.2 reserves.1 q.fee amountIn)

theorem V2.UniswapV2Pool.Sound.quotesOf {q : UniswapV2Pool} (h : q.Sound) : q.QuotesOf (q.reserve0, q.reserve1) := by
  intro amountIn hpos hlt
  rw [h.output (.inl rfl) hpos hlt, h.output (.inr rfl) hpos hlt]
  unfold UniswapV2Pool.reserveOf UniswapV2Pool.reserveAgainst
  rw [if_pos rfl, if_pos rfl, if_neg h.tokens.symm, if_neg h.tokens.symm]
  exact ⟨rfl, rfl⟩

/-- **Polled pools quote what would be paid at the cursor.** Over any turns of a new updater, whatever headers it polls and in
whatever batches it goes, as long as it runs: a V3 pool that had what its contract has at the block the updater starts at
quotes what its contract would swap at the cursor, and a pair that had its reserves quotes what the pair pays then. -/
theorem Collector.polled_quotes (c : Chain) (r : PoolRegistry Pool) (swapEventTx : Bool) (startBlock maxBlocksPerBatch : Nat)
    (turns : List (Env × Nat)) {r' : PoolRegistry Pool} {u' : UnifiedPoolUpdater}
    (hrun : polledFrom c r swapEventTx startBlock maxBlocksPerBatch turns = ⟨r', some u'⟩) :
    (∀ a (w : V3.OnChain c a) q, r.getPool a = some (.v3 q) → (∀ x ∈ PoolType.UniswapV3.topics, x ∈ r.topics) →
      V3.Tracks q (w.after (UnifiedPoolUpdater.startCursor r.lastProcessedBlock startBlock)) →
      (w.after (UnifiedPoolUpdater.startCursor r.lastProcessedBlock startBlock)).Sound →
      ∃ q', r'.getPool a = some (.v3 q') ∧ q'.QuotesOf (w.after r'.lastProcessedBlock)) ∧
    ∀ a (w : V2.OnChain c a) q, r.getPool a = some (.v2 q) → (∀ x ∈ PoolType.UniswapV2.topics, x ∈ r.topics) →
      (q.reserve0, q.reserve1) = w.after (UnifiedPoolUpdater.startCursor r.lastProcessedBlock startBlock) →
      q.poolType = .UniswapV2 → q.token0 ≠ q.token1 → q.fee < V2.FEE_DENOMINATOR →
      (0 < (w.after r'.lastProcessedBlock).1 ∧ (w.after r'.lastProcessedBlock).1 < 2 ^ 112) →
      (0 < (w.after r'.lastProcessedBlock).2 ∧ (w.after r'.lastProcessedBlock).2 < 2 ^ 112) →
      ∃ q', r'.getPool a = some (.v2 q') ∧ q'.fee = q.fee ∧ q'.QuotesOf (w.after r'.lastProcessedBlock) := by
  have hshows : ∀ {a : Address} {t : PoolType} (M : Mirroring Pool c a t), (∀ times, M.Dates times) → OnCourse M
      (UnifiedPoolUpdater.new r swapEventTx startBlock maxBlocksPerBatch).1
      (UnifiedPoolUpdater.new r swapEventTx startBlock maxBlocksPerBatch).2 →
      ∃ p, r'.getPool a = some p ∧ M.Shows r'.lastProcessedBlock p := by
    intro a t M hdates hcourse
    exact (polled_shows M hcourse (fun turn _ => hdates turn.1.times) hrun).shows
  constructor
  · intro a w q hq htopics htracks hsound
    have hcourse := OnCourse.new w.mirroring hq ⟨q, rfl, htracks, hsound⟩ htopics swapEventTx maxBlocksPerBatch
    obtain ⟨_, hx, q', rfl, htracks', hsound'⟩ := hshows w.mirroring (fun _ => trivial) hcourse
    exact ⟨q', hx, fun zeroForOne _ _ _ hfuel ha => htracks'.quotes hsound' zeroForOne hfuel ha⟩
  · intro a w q hq htopics hreserves htype htokens hfee h0 h1
    have hcourse := OnCourse.new (w.mirroring q) hq ⟨q, rfl, ⟨rfl, rfl, rfl, rfl⟩, hreserves⟩ htopics swapEventTx maxBlocksPerBatch
    obtain ⟨_, hx, q', rfl, ⟨htype', ht0, ht1, hfee'⟩, hreserves'⟩ := hshows (w.mirroring q) (fun _ => trivial) hcourse
    refine ⟨q', hx, hfee', ?_⟩
    rw [← hreserves'] at h0 h1 ⊢
    have hsound : q'.Sound := ⟨htype'.trans htype, hfee' ▸ hfee, by rwa [ht0, ht1], h0, h1⟩
    exact hsound.quotesOf

/-- A position coming into `rangePool` in block 120. -/
def mintLog : Log :=
  ⟨V3.rangePool.address, .event (.v3 (.mint (-60) 60 (10 ^ 18))), some 120, some 0, some 0, some 120, none, false⟩

def oneMint : Chain where
  logs := [mintLog]
  mined := by
    intro l hl
    rw [List.mem_singleton.1 hl]
    exact ⟨rfl, by decide, by decide, rfl, rfl, rfl⟩
  sorted := List.pairwise_singleton ..
  keys := List.pairwise_singleton ..

/-- The contract of `rangePool` once the position is in. -/
noncomputable def mintedContract : V3.Contract.Pool :=
  { V3.rangeContract with
    positions := V3.rangeContract.positions + Finsupp.single ⟨-60, 60, by decide⟩ (10 ^ 18)
    liquidity := 2 * 10 ^ 18 }

theorem mintedContract_does : V3.rangeContract.Does (.mint (-60) 60 (10 ^ 18)) mintedContract := by
  have hroom : 2 * 10 ^ 18 ≤ V3.Contract.maxLiquidityPerTick 60 := by decide
  refine .mints (r := ⟨-60, 60, by decide⟩) (by decide) ⟨⟨-1, rfl⟩, ⟨1, rfl⟩⟩ (fun t => ?_) (.inl rfl)
  unfold V3.rangeContract
  rw [Intervals.gross_add, Intervals.gross_single, Intervals.gross_single]
  dsimp only
  split <;> split <;> omega

theorem ownBetween_oneMint (n : Nat) :
    oneMint.ownBetween V3.rangePool.address .UniswapV3 n (n + 1) = if n = 119 then [mintLog] else [] := by
  by_cases hn : n = 119
  · subst hn
    rfl
  · rw [if_neg hn]
    unfold Chain.ownBetween
    rw [List.filter_eq_nil_iff]
    intro l hl hin
    rw [List.mem_singleton.1 hl] at hin
    have hblock : n < 120 ∧ 120 ≤ n + 1 := (of_decide_eq_true hin).2
    omega

noncomputable def rangeOnChain : V3.OnChain oneMint V3.rangePool.address where
  after n := if n < 120 then V3.rangeContract else mintedContract
  does := by
    intro n clock
    rw [ownBetween_oneMint]
    by_cases hn : n = 119
    · subst hn
      exact .cons mintedContract_does rfl (.nil _)
    · rw [if_neg hn]
      have hsame : n + 1 < 120 ↔ n < 120 := by omega
      simp only [hsame]
      exact .nil _

/-- The pool at block 100. -/
def rangeRegistry : PoolRegistry Pool :=
  { (PoolRegistry.empty : PoolRegistry Pool) with
    byAddress := (∅ : ExtTreeMap Address Pool).insert V3.rangePool.address (.v3 V3.rangePool)
    lastProcessedBlock := 100
    topics := PoolType.UniswapV3.topics }

/-- Two batches on, the pool quotes what its contract would swap with the position in. -/
theorem Collector.polled_quotes_mint : ∃ r' u' q', polledFrom oneMint rangeRegistry false 0 40 [(stillEnv, 150), (stillEnv, 150)] =
    ⟨r', some u'⟩ ∧ r'.getPool V3.rangePool.address = some (.v3 q') ∧ q'.QuotesOf mintedContract := by
  have hruns : (polledFrom oneMint rangeRegistry false 0 40 [(stillEnv, 150), (stillEnv, 150)]).updater.isSome := by decide +kernel
  have hcursor : (polledFrom oneMint rangeRegistry false 0 40 [(stillEnv, 150), (stillEnv, 150)]).registry.lastProcessedBlock = 150 := by
    decide +kernel
  rcases hend : polledFrom oneMint rangeRegistry false 0 40 [(stillEnv, 150), (stillEnv, 150)] with ⟨r', updater⟩
  rw [hend] at hruns hcursor
  obtain ⟨u', rfl⟩ := Option.isSome_iff_exists.1 hruns
  obtain ⟨hv3, -⟩ := polled_quotes oneMint rangeRegistry false 0 40 [(stillEnv, 150), (stillEnv, 150)] hend
  obtain ⟨q', hq', hquotes⟩ := hv3 V3.rangePool.address rangeOnChain V3.rangePool (by decide +kernel) (fun _ h => h)
    V3.rangePool_tracks V3.rangeContract_sound
  have hafter : rangeOnChain.after 150 = mintedContract := by
    unfold rangeOnChain
    simp
  dsimp only at hcursor
  rw [hcursor, hafter] at hquotes
  exact ⟨r', u', q', rfl, hq', hquotes⟩

end EvmDexPool

import EvmDexPool.Lib.Ledger
import EvmDexPool.LB.Events

/-!
# Replay conserves the reserves

Every log is a list of entries on bin sides (`entries`): a credit and a debit for each side it
moves. `apply_log` posts exactly those entries (`reserves_applyLog`), and keeps the map down to the
bins with something in them (`Stored`), so a replay is a run of the account book and the ledger's
balance and order theorems apply to it.
-/

namespace EvmDexPool.LB

open Ledger

inductive Side
  | x | y
deriving DecidableEq, Repr

/-- The entries one bin's move makes: credit, then debit, on either side. -/
def binEntries (id inX inY outX outY : Nat) : List (Entry (Nat × Side)) :=
  [⟨(id, .x), inX, outX⟩, ⟨(id, .y), inY, outY⟩]

def deposits (e : Nat × B256) : List (Entry (Nat × Side)) :=
  binEntries e.1 (decodeAmounts e.2).1 (decodeAmounts e.2).2 0 0

def withdrawals (e : Nat × B256) : List (Entry (Nat × Side)) :=
  binEntries e.1 0 0 (decodeAmounts e.2).1 (decodeAmounts e.2).2

/-- What an event credits and debits. A flash loan credits its fee net of the protocol's part;
composition fees and fee parameters move no reserve. -/
def eventEntries : LBEvent → List (Entry (Nat × Side))
  | .swap id amountsIn amountsOut _ =>
    binEntries id (decodeAmounts amountsIn).1 (decodeAmounts amountsIn).2
      (decodeAmounts amountsOut).1 (decodeAmounts amountsOut).2
  | .compositionFees _ => []
  | .depositedToBins ids amounts => (ids.zip amounts).flatMap deposits
  | .withdrawnFromBins ids amounts => (ids.zip amounts).flatMap withdrawals
  | .staticFeeParametersSet .. => []
  | .flashLoan id totalFees protocolFees =>
    binEntries id ((decodeAmounts totalFees).1 - (decodeAmounts protocolFees).1)
      ((decodeAmounts totalFees).2 - (decodeAmounts protocolFees).2) 0 0
  | .swapV20 id swapForY amountIn amountOut _ =>
    if swapForY then binEntries id amountIn 0 0 amountOut else binEntries id 0 amountIn amountOut 0
  | .depositedToBinV20 id amountX amountY => binEntries id amountX amountY 0 0
  | .withdrawnFromBinV20 id amountX amountY => binEntries id 0 0 amountX amountY

/-- The ids of an event are the contract's `uint24`, and a flash loan's protocol fee is at most its
total fee. -/
def RegularEvent : LBEvent → Prop
  | .swap id .. => id < 2 ^ 24
  | .compositionFees id => id < 2 ^ 24
  | .depositedToBins ids _ => ∀ id ∈ ids, id < 2 ^ 24
  | .withdrawnFromBins ids _ => ∀ id ∈ ids, id < 2 ^ 24
  | .staticFeeParametersSet .. => True
  | .flashLoan id totalFees protocolFees => id < 2 ^ 24 ∧
    (decodeAmounts protocolFees).1 ≤ (decodeAmounts totalFees).1 ∧
    (decodeAmounts protocolFees).2 ≤ (decodeAmounts totalFees).2
  | .swapV20 id .. => id < 2 ^ 24
  | .depositedToBinV20 id .. => id < 2 ^ 24
  | .withdrawnFromBinV20 id .. => id < 2 ^ 24

def entries (l : Log) : List (Entry (Nat × Side)) :=
  match l.payload with
  | .event (.lb e) => eventEntries e
  | _ => []

def Regular (l : Log) : Prop :=
  match l.payload with
  | .event (.lb e) => RegularEvent e
  | _ => True

namespace LBPool

/-- What each bin side holds; a bin that is not in the map holds nothing. -/
def reserves (p : LBPool) (k : Nat × Side) : Nat :=
  match k.2 with
  | .x => (p.bin k.1).1
  | .y => (p.bin k.1).2

theorem reserves_of_bins {p q : LBPool} (h : p.bins = q.bins) : p.reserves = q.reserves := by
  unfold reserves bin
  rw [h]

/-- The map holds no empty bin. -/
def Stored (p : LBPool) : Prop := ∀ id : Nat, p.bins[id]? ≠ some (0, 0)

variable {p : LBPool}

/-- A map without empty bins is determined by the reserves. -/
theorem Stored.getElem? (h : p.Stored) (id : Nat) :
    p.bins[id]? = if p.reserves (id, .x) = 0 ∧ p.reserves (id, .y) = 0 then none
      else some (p.reserves (id, .x), p.reserves (id, .y)) := by
  have hid := h id
  simp only [reserves, bin]
  rcases Option.eq_none_or_eq_some p.bins[id]? with hb | ⟨⟨rx, ry⟩, hb⟩
  · simp [hb]
  · rw [hb] at hid
    have : ¬ (rx = 0 ∧ ry = 0) := fun h0 => hid (by rw [h0.1, h0.2])
    simp [hb, this]

theorem stored_updateBin (h : p.Stored) (id x y : Nat) : (p.updateBin id x y).Stored := by
  intro k
  rw [updateBin_getElem?]
  by_cases hk : k = id
  · rw [if_pos hk]
    split
    · simp
    · next h0 => simpa using h0
  · rw [if_neg hk]
    exact h k

/-- Writing both sides of a bin posts a move to it. -/
theorem reserves_updateBin {id inX inY outX outY : Nat} :
    (p.updateBin id ((p.bin id).1 + inX - outX) ((p.bin id).2 + inY - outY)).reserves =
      run p.reserves (binEntries id inX inY outX outY) := by
  funext ⟨k, side⟩
  simp only [run, binEntries, List.foldl_cons, List.foldl_nil, post]
  by_cases hk : k = id
  · subst hk
    cases side <;> simp [reserves, updateBin_bin, Function.update]
  · cases side <;> simp [reserves, updateBin_bin, Function.update, hk]

theorem covered_binEntries {cap id inX inY outX outY : Nat}
    (h : Covered cap p.reserves (binEntries id inX inY outX outY)) :
    ((p.bin id).1 + inX < cap ∧ outX ≤ (p.bin id).1 + inX) ∧
      (p.bin id).2 + inY < cap ∧ outY ≤ (p.bin id).2 + inY := by
  obtain ⟨h1, h2, h3, h4, -⟩ := h
  exact ⟨⟨h1, h2⟩, by simpa [post, reserves, Function.update] using h3,
    by simpa [post, reserves, Function.update] using h4⟩

/-! ## One log -/

theorem reserves_depositBin (p : LBPool) (e : Nat × B256) (hid : e.1 < 2 ^ 24)
    (h : Covered (2 ^ 128) p.reserves (deposits e)) :
    (p.depositBin e.1 e.2).reserves = run p.reserves (deposits e) := by
  obtain ⟨⟨hx, -⟩, hy, -⟩ := covered_binEntries h
  rw [deposits, ← reserves_updateBin, depositBin_eq, clampId, if_pos (by omega), Fixed.satAdd_of_lt hx,
    Fixed.satAdd_of_lt hy]
  rfl

theorem reserves_withdrawBin (p : LBPool) (e : Nat × B256) (hid : e.1 < 2 ^ 24)
    (_ : Covered (2 ^ 128) p.reserves (withdrawals e)) :
    (p.withdrawBin e.1 e.2).reserves = run p.reserves (withdrawals e) := by
  rw [withdrawals, ← reserves_updateBin, withdrawBin_eq, clampId, if_pos (by omega)]
  rfl

/-- A fold of steps that each post their entries posts all of them. -/
theorem reserves_foldl {α : Type} {cap : Nat} {step : LBPool → α → LBPool} {ent : α → List (Entry (Nat × Side))}
    {P : α → Prop} (hstep : ∀ p a, P a → Covered cap p.reserves (ent a) →
      (step p a).reserves = run p.reserves (ent a)) :
    ∀ {as : List α} {p : LBPool}, (∀ a ∈ as, P a) → Covered cap p.reserves (as.flatMap ent) →
      (as.foldl step p).reserves = run p.reserves (as.flatMap ent)
  | [], _, _, _ => rfl
  | a :: as, p, hP, h => by
    rw [List.flatMap_cons, covered_append] at h
    have ha := hstep p a (hP a List.mem_cons_self) h.1
    rw [List.foldl_cons, List.flatMap_cons, run_append, ← ha]
    exact reserves_foldl hstep (fun b hb => hP b (List.mem_cons_of_mem a hb)) (ha ▸ h.2)

/-- The bounds of a book keep the amounts of a v2.0 liquidity log within `u128`. -/
theorem reserves_applyLiquidityV20 {name : String} {side : Nat → Nat → Nat} {ts id amountX amountY : Nat}
    {es : List (Entry (Nat × Side))} (hid : id < 2 ^ 24) (hx : amountX < 2 ^ 128) (hy : amountY < 2 ^ 128)
    (h : (p.updateBin id (side (p.bin id).1 amountX) (side (p.bin id).2 amountY)).reserves = run p.reserves es) :
    (p.applyLiquidityV20 name side ts id amountX amountY).1.reserves = run p.reserves es := by
  rw [applyLiquidityV20, Fixed.narrow_of_lt (by omega)]
  simp only [Fixed.narrow_of_lt hx, Fixed.narrow_of_lt hy]
  exact h

/-- The bounds make a v2.0 swap's amounts fit `u128`, so the bin is written whatever becomes of the
accumulator. -/
theorem reserves_writtenV20 (ts : Nat) {id amountIn amountOut : Nat} {swapForY : Bool}
    (h : Covered (2 ^ 128) p.reserves
      (if swapForY then binEntries id amountIn 0 0 amountOut else binEntries id 0 amountIn amountOut 0)) :
    amountIn < 2 ^ 128 ∧ amountOut < 2 ^ 128 ∧
      (p.writtenV20 ts id swapForY amountIn amountOut).reserves = run p.reserves
        (if swapForY then binEntries id amountIn 0 0 amountOut else binEntries id 0 amountIn amountOut 0) := by
  have hbins : (p.writtenV20 ts id swapForY amountIn amountOut).reserves =
      (p.updateBin id (p.swapSidesV20 id swapForY amountIn amountOut).1
        (p.swapSidesV20 id swapForY amountIn amountOut).2).reserves := reserves_of_bins rfl
  rw [hbins]
  cases swapForY with
  | true =>
    rw [if_pos rfl] at h ⊢
    obtain ⟨⟨hx, -⟩, hy, hy'⟩ := covered_binEntries h
    refine ⟨by omega, by omega, ?_⟩
    rw [← reserves_updateBin, swapSidesV20, if_pos rfl, Fixed.satAdd_of_lt hx]
    rfl
  | false =>
    rw [if_neg (by decide)] at h ⊢
    obtain ⟨⟨hx, hx'⟩, hy, -⟩ := covered_binEntries h
    refine ⟨by omega, by omega, ?_⟩
    rw [← reserves_updateBin, swapSidesV20, if_neg (by decide), Fixed.satAdd_of_lt hy]
    rfl

/-- **One event posts its entries**, a v2.0 swap also when its accumulator does not fit and the call
fails after the bin was written. -/
theorem reserves_applyEvent {now ts : Nat} {e : LBEvent} (hreg : RegularEvent e)
    (h : Covered (2 ^ 128) p.reserves (eventEntries e)) :
    (p.applyEvent now ts e).1.reserves = run p.reserves (eventEntries e) := by
  cases e with
  | swap id amountsIn amountsOut acc =>
    rw [eventEntries] at h ⊢
    obtain ⟨⟨hx, -⟩, hy, -⟩ := covered_binEntries h
    change (p.applySwap now ts id amountsIn amountsOut acc).reserves = _
    rw [reserves_of_bins (applySwap_bins ..), Fixed.satAdd_of_lt hx, Fixed.satAdd_of_lt hy, reserves_updateBin]
  | compositionFees id => rfl
  | depositedToBins ids amounts =>
    have hids : ∀ a ∈ ids.zip amounts, a.1 < 2 ^ 24 := fun a ha => hreg a.1 (List.of_mem_zip ha).1
    rw [eventEntries] at h ⊢
    exact (reserves_of_bins (applyDepositedToBins_bins ..)).trans (reserves_foldl reserves_depositBin hids h)
  | withdrawnFromBins ids amounts =>
    have hids : ∀ a ∈ ids.zip amounts, a.1 < 2 ^ 24 := fun a ha => hreg a.1 (List.of_mem_zip ha).1
    rw [eventEntries] at h ⊢
    exact (reserves_of_bins (applyWithdrawnFromBins_bins ..)).trans (reserves_foldl reserves_withdrawBin hids h)
  | staticFeeParametersSet => rfl
  | flashLoan id totalFees protocolFees =>
    rw [eventEntries] at h ⊢
    obtain ⟨-, hpx, hpy⟩ := hreg
    obtain ⟨⟨hx, -⟩, hy, -⟩ := covered_binEntries h
    rw [← reserves_updateBin, applyEvent, applyFlashLoan_eq hpx hpy hx hy]
    rfl
  | swapV20 id swapForY amountIn amountOut acc =>
    rw [eventEntries] at h ⊢
    have hid : id < 2 ^ 24 := hreg
    obtain ⟨hin, hout, hwritten⟩ := reserves_writtenV20 ts h
    change (p.applySwapV20 now ts id swapForY amountIn amountOut acc).1.reserves = _
    rw [applySwapV20_eq (by omega) hin hout, ← hwritten]
    cases Fixed.narrow 32 acc <;> exact reserves_of_bins rfl
  | depositedToBinV20 id amountX amountY =>
    rw [eventEntries] at h ⊢
    obtain ⟨⟨hx, -⟩, hy, -⟩ := covered_binEntries h
    refine reserves_applyLiquidityV20 hreg (by omega) (by omega) ?_
    rw [← reserves_updateBin, Fixed.satAdd_of_lt hx, Fixed.satAdd_of_lt hy]
    rfl
  | withdrawnFromBinV20 id amountX amountY =>
    rw [eventEntries] at h ⊢
    obtain ⟨⟨hx, hx'⟩, hy, hy'⟩ := covered_binEntries h
    refine reserves_applyLiquidityV20 hreg (by omega) (by omega) ?_
    rw [← reserves_updateBin]
    rfl

theorem stored_of_bins {p q : LBPool} (h : p.bins = q.bins) (hp : p.Stored) : q.Stored := by
  unfold Stored at *
  rwa [← h]

theorem stored_foldl {α : Type} {step : LBPool → α → LBPool} (hstep : ∀ p a, p.Stored → (step p a).Stored) :
    ∀ {as : List α} {p : LBPool}, p.Stored → (as.foldl step p).Stored
  | [], _, h => h
  | a :: as, p, h => by
    rw [List.foldl_cons]
    exact stored_foldl hstep (hstep p a h)

theorem stored_applyLiquidityV20 {name : String} {side : Nat → Nat → Nat} {ts id amountX amountY : Nat}
    (h : p.Stored) : (p.applyLiquidityV20 name side ts id amountX amountY).1.Stored := by
  unfold applyLiquidityV20
  repeat' split
  all_goals first | exact h | exact stored_of_bins rfl (stored_updateBin h _ _ _)

/-- No event leaves an empty bin in the map, not even one that fails half-way. -/
theorem stored_applyEvent {now ts : Nat} {e : LBEvent} (h : p.Stored) : (p.applyEvent now ts e).1.Stored := by
  cases e with
  | swap id amountsIn amountsOut acc =>
    exact stored_of_bins (applySwap_bins ..).symm (stored_updateBin h _ _ _)
  | compositionFees id => exact stored_of_bins rfl h
  | depositedToBins ids amounts =>
    exact stored_of_bins (applyDepositedToBins_bins ..).symm
      (stored_foldl (fun _ _ hp => stored_updateBin hp _ _ _) h)
  | withdrawnFromBins ids amounts =>
    exact stored_of_bins (applyWithdrawnFromBins_bins ..).symm
      (stored_foldl (fun _ _ hp => stored_updateBin hp _ _ _) h)
  | staticFeeParametersSet => exact stored_of_bins rfl h
  | flashLoan id totalFees protocolFees =>
    change (p.applyFlashLoan now id totalFees protocolFees).1.Stored
    unfold applyFlashLoan
    dsimp only
    repeat' split
    all_goals first | exact h | exact stored_of_bins rfl (stored_updateBin h _ _ _)
  | swapV20 id swapForY amountIn amountOut acc =>
    change (p.applySwapV20 now ts id swapForY amountIn amountOut acc).1.Stored
    unfold applySwapV20
    dsimp only
    repeat' split
    all_goals first | exact h | exact stored_of_bins rfl (stored_updateBin h _ _ _)
  | depositedToBinV20 id amountX amountY => exact stored_applyLiquidityV20 h
  | withdrawnFromBinV20 id amountX amountY => exact stored_applyLiquidityV20 h

/-! ## A whole replay -/

theorem reserves_applyLog (p : LBPool) (c : Nat × Log) (hreg : Regular c.2)
    (h : Covered (2 ^ 128) p.reserves (entries c.2)) :
    (p.applyLog c.1 c.2).1.reserves = run p.reserves (entries c.2) := by
  unfold Regular at hreg
  unfold entries at h ⊢
  unfold applyLog
  rcases hp : c.2.payload with (e | e | e | e) | ⟨t, err⟩ | _
  case event.lb =>
    rw [hp] at hreg h
    exact reserves_applyEvent hreg h
  case raw => dsimp only; split <;> rfl
  all_goals rfl

theorem stored_applyLog {now : Nat} {l : Log} (h : p.Stored) : (p.applyLog now l).1.Stored := by
  unfold applyLog
  rcases hp : l.payload with (e | e | e | e) | ⟨t, err⟩ | _
  case event.lb => exact stored_applyEvent h
  case raw => dsimp only; split <;> exact h
  all_goals exact h

/-- All entries of a sequence of calls, in order. -/
def callEntries (calls : List (Nat × Log)) : List (Entry (Nat × Side)) := calls.flatMap fun c => entries c.2

theorem reserves_replay {calls : List (Nat × Log)} (hreg : ∀ c ∈ calls, Regular c.2)
    (h : Covered (2 ^ 128) p.reserves (callEntries calls)) :
    (p.replay calls).reserves = run p.reserves (callEntries calls) :=
  reserves_foldl reserves_applyLog hreg h

theorem stored_replay (h : p.Stored) (calls : List (Nat × Log)) : (p.replay calls).Stored :=
  stored_foldl (fun _ _ hp => stored_applyLog hp) h

/-- Two pools without empty bins and with the same reserves have the same map. -/
theorem bins_ext {q : LBPool} (hp : p.Stored) (hq : q.Stored) (h : p.reserves = q.reserves) : p.bins = q.bins := by
  refine Std.ExtTreeMap.ext_getElem? fun id => ?_
  rw [hp.getElem?, hq.getElem?, h]

/-- Composition fees and fee parameters move no bin. -/
theorem bins_applyLog_of_topic {now : Nat} {l : Log}
    (h : l.topic0 = some .lbCompositionFees ∨ l.topic0 = some .lbStaticFeeParametersSet) :
    (p.applyLog now l).1.bins = p.bins := by
  unfold Log.topic0 at h
  unfold applyLog
  rcases hp : l.payload with (e | e | e | e) | ⟨t, err⟩ | _
  case event.lb =>
    rw [hp] at h
    cases e with
    | compositionFees id => rfl
    | staticFeeParametersSet => rfl
    | _ => simp [Event.topic, LBEvent.topic] at h
  case raw => dsimp only; split <;> rfl
  all_goals rfl

/-- **Replay conserves the reserves.** From a map of non-empty bins, and as long as no bin side goes
below zero or, credited first, to `2^128`: each side of each bin is its initial reserve plus what the
logs credited minus what they debited; the map holds exactly the bins with a nonzero side; composition
fees and fee parameters change no bin; and any other order of the logs that keeps the bounds ends with
the same map. -/
theorem replay_conserves (p : LBPool) (calls : List (Nat × Log)) (hp : p.Stored)
    (hreg : ∀ c ∈ calls, Regular c.2) (hcov : Covered (2 ^ 128) p.reserves (callEntries calls)) :
    (∀ k, (p.replay calls).reserves k + debits k (callEntries calls) =
        p.reserves k + credits k (callEntries calls)) ∧
      (∀ id, (p.replay calls).bins[id]? =
        if (p.replay calls).reserves (id, .x) = 0 ∧ (p.replay calls).reserves (id, .y) = 0 then none
        else some ((p.replay calls).reserves (id, .x), (p.replay calls).reserves (id, .y))) ∧
      (∀ (q : LBPool) (now : Nat) (l : Log),
        (l.topic0 = some .lbCompositionFees ∨ l.topic0 = some .lbStaticFeeParametersSet) →
          (q.applyLog now l).1.bins = q.bins) ∧
      (∀ calls', calls'.Perm calls → Covered (2 ^ 128) p.reserves (callEntries calls') →
        (p.replay calls').bins = (p.replay calls).bins) := by
  have hrun := reserves_replay hreg hcov
  refine ⟨fun k => ?_, fun id => (stored_replay hp calls).getElem? id, fun q now l hl => bins_applyLog_of_topic hl,
    fun calls' hperm hcov' => ?_⟩
  · rw [hrun]
    exact run_add_debits k hcov
  · have hreg' : ∀ c ∈ calls', Regular c.2 := fun c hc => hreg c (hperm.mem_iff.1 hc)
    refine bins_ext (stored_replay hp _) (stored_replay hp _) ?_
    rw [hrun, reserves_replay hreg' hcov']
    exact run_perm (hperm.flatMap_right _) hcov' hcov

theorem oneBinPool_stored {reserveY : Nat} (h : reserveY ≠ 0) : (oneBinPool reserveY).Stored := by
  intro id hb
  obtain ⟨-, hr⟩ := oneBinPool_bins hb
  simp only [Prod.mk.injEq, true_and] at hr
  exact h hr.symm

/-- A swap of 7 X for 2 Y and a deposit of 3 X above it: the map after either order is the same. -/
theorem replay_conserves_swap :
    let swap : Nat × Log :=
      (0, ⟨0, .event (.lb (.swap 8386608 7 (2 * 2 ^ 128) 0)), none, none, none, none, none, false⟩)
    let deposit : Nat × Log :=
      (0, ⟨0, .event (.lb (.depositedToBins [8386609] [3])), none, none, none, none, none, false⟩)
    ((oneBinPool 5).replay [deposit, swap]).bins = ((oneBinPool 5).replay [swap, deposit]).bins := by
  intro swap deposit
  have h := replay_conserves (oneBinPool 5) [swap, deposit] (oneBinPool_stored (by decide))
    (by simp [swap, deposit, Regular, RegularEvent]) (by decide +kernel)
  exact h.2.2.2 _ (List.Perm.swap ..) (by decide +kernel)

end LBPool

end EvmDexPool.LB

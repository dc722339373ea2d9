import EvmDexPool.LB.Events
import EvmDexPool.V3.Pool

/-!
# What a failed log leaves behind

The collector logs an `apply_log` error and keeps using the pool. In the V3 family, and in every
Liquidity Book arm but one, nothing has been written when an error is returned. The v2.0 `Swap` arm
narrows the accumulator last: a log whose accumulator does not fit `u32` has by then moved the bin,
the references and the active id (`LBPool.WritesEarly`).
-/

namespace EvmDexPool

/-- `apply_log` returned `Err`. -/
def Failed (r : Except Fault Unit) : Prop := ∃ msg, r = .error (.error msg)

theorem not_failed_ok : ¬ Failed (.ok ()) := by rintro ⟨_, h⟩; cases h

namespace LB.LBPool

/-- What the map holds at a bin once its two sides are written. -/
def binEntry (sides : Nat × Nat) : Option (Nat × Nat) := if sides.1 = 0 ∧ sides.2 = 0 then none else some sides

/-- A v2.0 swap log that is turned down for its accumulator alone, and whose bin, references or
active id are not what the pool already holds. -/
def WritesEarly (p : LBPool) (now : Nat) (l : Log) : Prop :=
  ∃ id swapForY amountIn amountOut acc,
    l.payload = .event (.lb (.swapV20 id swapForY amountIn amountOut acc)) ∧
    id < 2 ^ 32 ∧ amountIn < 2 ^ 128 ∧ amountOut < 2 ^ 128 ∧ 2 ^ 32 ≤ acc ∧
    ¬ (p.bins[id]? = binEntry (p.swapSidesV20 id swapForY amountIn amountOut) ∧
      p.updateReferences (l.timestamp now) = (p.volatilityReference, p.idReference) ∧ p.activeId = id)

variable {p : LBPool}

theorem updateBin_eq_self (id x y : Nat) : (p.updateBin id x y).bins = p.bins ↔ p.bins[id]? = binEntry (x, y) := by
  constructor
  · intro h
    rw [← h, updateBin_getElem?, if_pos rfl]
    rfl
  · intro h
    refine Std.ExtTreeMap.ext_getElem? fun k => ?_
    rw [updateBin_getElem?]
    split
    · next hk => rw [hk, h]; rfl
    · rfl

theorem updateReferences_updateBin (id x y ts : Nat) :
    (p.updateBin id x y).updateReferences ts = p.updateReferences ts := by
  rw [updateBin_eq]; rfl

/-- The early writes of a v2.0 swap change nothing exactly when the bin, the references and the active
id are already there. -/
theorem writtenV20_eq_self {ts id amountIn amountOut : Nat} {swapForY : Bool} :
    p.writtenV20 ts id swapForY amountIn amountOut = p ↔
      p.bins[id]? = binEntry (p.swapSidesV20 id swapForY amountIn amountOut) ∧
      p.updateReferences ts = (p.volatilityReference, p.idReference) ∧ p.activeId = id := by
  have hw : p.writtenV20 ts id swapForY amountIn amountOut =
      { p with
        bins := (p.updateBin id (p.swapSidesV20 id swapForY amountIn amountOut).1
          (p.swapSidesV20 id swapForY amountIn amountOut).2).bins
        volatilityReference := (p.updateReferences ts).1
        idReference := (p.updateReferences ts).2
        activeId := id } := by
    unfold writtenV20 moveReferences
    dsimp only
    rw [updateReferences_updateBin, updateBin_eq]
  rw [hw]
  generalize p.swapSidesV20 id swapForY amountIn amountOut = sides
  obtain ⟨x, y⟩ := sides
  have hbins := updateBin_eq_self (p := p) id x y
  constructor
  · intro h
    have hb := congrArg bins h
    exact ⟨hbins.1 hb, Prod.ext (congrArg volatilityReference h)
      (congrArg idReference h), (congrArg activeId h).symm⟩
  · rintro ⟨hb, hr, rfl⟩
    dsimp only
    rw [hbins.2 hb, hr]

theorem applyLiquidityV20_failed {name : String} {side : Nat → Nat → Nat} {ts id amountX amountY : Nat} :
    Failed (p.applyLiquidityV20 name side ts id amountX amountY).2 →
      (p.applyLiquidityV20 name side ts id amountX amountY).1 = p := by
  unfold applyLiquidityV20
  repeat' split
  all_goals first | exact fun _ => rfl | exact fun h => absurd h not_failed_ok

theorem applyFlashLoan_failed {now id : Nat} {totalFees protocolFees : B256} :
    Failed (p.applyFlashLoan now id totalFees protocolFees).2 →
      (p.applyFlashLoan now id totalFees protocolFees).1 = p := by
  unfold applyFlashLoan
  dsimp only
  repeat' split
  all_goals first | exact fun _ => rfl | exact fun h => absurd h not_failed_ok

/-- A v2.0 swap that fails before its accumulator leaves the pool; one that fails on it leaves what it
had written. -/
theorem applySwapV20_failed {now ts id amountIn amountOut acc : Nat} {swapForY : Bool} :
    (Failed (p.applySwapV20 now ts id swapForY amountIn amountOut acc).2 →
      (p.applySwapV20 now ts id swapForY amountIn amountOut acc).1 = p) ↔
    (id < 2 ^ 32 → amountIn < 2 ^ 128 → amountOut < 2 ^ 128 → 2 ^ 32 ≤ acc →
      p.writtenV20 ts id swapForY amountIn amountOut = p) := by
  by_cases hfit : id < 2 ^ 32 ∧ amountIn < 2 ^ 128 ∧ amountOut < 2 ^ 128
  · obtain ⟨hid, hin, hout⟩ := hfit
    rw [applySwapV20_eq hid hin hout]
    cases hacc : Fixed.narrow 32 acc with
    | none =>
      rw [Fixed.narrow_eq_none] at hacc
      exact ⟨fun h _ _ _ _ => h ⟨_, rfl⟩, fun h _ => h hid hin hout hacc⟩
    | some v =>
      have := (Fixed.narrow_eq_some.1 hacc).1
      exact ⟨fun _ _ _ _ h => by omega, fun _ h => absurd h not_failed_ok⟩
  · refine ⟨fun _ hid hin hout _ => absurd ⟨hid, hin, hout⟩ hfit, fun _ _ => ?_⟩
    unfold applySwapV20
    cases hid : Fixed.narrow 32 id with
    | none => rfl
    | some i => cases hin : Fixed.narrow 128 amountIn with
      | none => rfl
      | some a => cases hout : Fixed.narrow 128 amountOut with
        | none => rfl
        | some b =>
          exact absurd ⟨(Fixed.narrow_eq_some.1 hid).1, (Fixed.narrow_eq_some.1 hin).1,
            (Fixed.narrow_eq_some.1 hout).1⟩ hfit

/-- **Liquidity Book**: a failed log leaves the pool as it was unless it is a v2.0 swap that
`WritesEarly`. -/
theorem applyLog_failed (now : Nat) (l : Log) :
    (Failed (p.applyLog now l).2 → (p.applyLog now l).1 = p) ↔ ¬ p.WritesEarly now l := by
  unfold applyLog WritesEarly
  rcases hp : l.payload with (e | e | e | e) | ⟨t, err⟩ | _
  case event.lb =>
    cases e with
    | swapV20 id swapForY amountIn amountOut acc =>
      change (Failed (p.applySwapV20 now (l.timestamp now) id swapForY amountIn amountOut acc).2 →
        (p.applySwapV20 now (l.timestamp now) id swapForY amountIn amountOut acc).1 = p) ↔ _
      refine applySwapV20_failed.trans ⟨?_, ?_⟩
      · rintro h ⟨id', fy, a, b, c, he, h1, h2, h3, h4, hne⟩
        cases he
        exact hne (writtenV20_eq_self.1 (h h1 h2 h3 h4))
      · intro h h1 h2 h3 h4
        by_contra hne
        exact h ⟨_, _, _, _, _, rfl, h1, h2, h3, h4, fun hs => hne (writtenV20_eq_self.2 hs)⟩
    | flashLoan =>
      exact iff_of_true applyFlashLoan_failed (by rintro ⟨_, _, _, _, _, he, -⟩; cases he)
    | depositedToBinV20 =>
      exact iff_of_true applyLiquidityV20_failed (by rintro ⟨_, _, _, _, _, he, -⟩; cases he)
    | withdrawnFromBinV20 =>
      exact iff_of_true applyLiquidityV20_failed (by rintro ⟨_, _, _, _, _, he, -⟩; cases he)
    | _ =>
      exact iff_of_true (fun h => absurd h not_failed_ok) (by rintro ⟨_, _, _, _, _, he, -⟩; cases he)
  case raw =>
    refine iff_of_true ?_ (by rintro ⟨_, _, _, _, _, he, -⟩; cases he)
    dsimp only
    split <;> exact fun _ => rfl
  all_goals
    exact iff_of_true (fun _ => rfl) (by rintro ⟨_, _, _, _, _, he, -⟩; cases he)

end LB.LBPool

namespace V3.UniswapV3Pool
variable {p : UniswapV3Pool}

theorem updateState_failed {now sqrtPriceX96 : Nat} {tick : Int} {liquidity : Nat} :
    Failed (p.updateState now sqrtPriceX96 tick liquidity).2 →
      (p.updateState now sqrtPriceX96 tick liquidity).1 = p := by
  unfold updateState
  repeat' split
  all_goals first | exact fun _ => rfl | exact fun h => absurd h not_failed_ok

theorem applyMintEvent_failed {tickLower tickUpper : Int} {amount : Nat} :
    Failed (p.applyMintEvent tickLower tickUpper amount).2 →
      (p.applyMintEvent tickLower tickUpper amount).1 = p := by
  unfold applyMintEvent
  dsimp only
  split
  · exact fun _ => rfl
  · split
    · -- the overflow of the negation is no `Err`
      rintro ⟨_, h⟩
      cases h
    · exact fun h => absurd h not_failed_ok

/-- Burning one end of a range leaves the other end where it is. -/
theorem burnTick_other {i j delta : Int} {amount : Nat} {q : UniswapV3Pool} (hij : i ≠ j)
    (h : p.burnTick i delta amount = some q) : q.ticks[j]? = p.ticks[j]? := by
  unfold burnTick at h
  split at h
  · simp only [Option.some.injEq] at h
    subst h
    split
    · simp [updateTick, Ranges.lookup_erase, Ranges.lookup_insert, hij.symm]
    · simp [Ranges.lookup_insert, hij.symm]
  · cases h

theorem burnTick_isSome {i : Int} (delta : Int) (amount : Nat) (h : i ∈ p.ticks) :
    (p.burnTick i delta amount).isSome := by
  have : p.ticks[i]? = some p.ticks[i] := Std.ExtTreeMap.getElem?_eq_some_getElem h
  simp [burnTick, this]

/-- Both ends are checked before either is touched, so a burn that fails has written nothing. -/
theorem applyBurnEvent_failed {tickLower tickUpper : Int} {amount : Nat}
    (h : Failed (p.applyBurnEvent tickLower tickUpper amount).2) :
    (p.applyBurnEvent tickLower tickUpper amount).1 = p := by
  unfold applyBurnEvent at *
  by_cases hr : tickLower ≥ tickUpper
  · rw [if_pos hr]
  rw [if_neg hr] at h ⊢
  by_cases hl : tickLower ∉ p.ticks
  · rw [if_pos hl]
  rw [if_neg hl] at h ⊢
  by_cases hu : tickUpper ∉ p.ticks
  · rw [if_pos hu]
  rw [if_neg hu] at h ⊢
  dsimp only at h ⊢
  cases hq : p.burnTick tickLower (-Fixed.toSigned 128 amount) amount with
  | none => rfl
  | some q =>
    rw [hq] at h
    have hmem : tickUpper ∈ q.ticks := by
      have := burnTick_other (show tickLower ≠ tickUpper by omega) hq
      rw [Std.ExtTreeMap.mem_iff_isSome_getElem?] at *
      rw [this]
      simpa using hu
    obtain ⟨q', hq'⟩ := Option.isSome_iff_exists.1
      (burnTick_isSome (Fixed.toSigned 128 amount) amount hmem)
    simp only [hq'] at h
    exact absurd h not_failed_ok

/-- **The V3 family**: a failed log leaves the pool as it was. -/
theorem applyLog_failed {now : Nat} {l : Log} (h : Failed (p.applyLog now l).2) : (p.applyLog now l).1 = p := by
  unfold applyLog at h ⊢
  rcases hp : l.payload with (e | e | e | e) | ⟨t, err⟩ | _ <;> rw [hp] at h
  case event.v3 =>
    cases e with
    | swap => exact updateState_failed h
    | pancakeSwap => exact updateState_failed h
    | algebraSwap => exact updateState_failed h
    | mint => exact applyMintEvent_failed h
    | ramsesMint => exact applyMintEvent_failed h
    | burn => exact applyBurnEvent_failed h
    | algebraBurn => exact applyBurnEvent_failed h
    | _ => exact absurd h not_failed_ok
  case raw =>
    revert h
    dsimp only
    repeat' split
    all_goals first | exact fun _ => rfl | exact fun h => absurd h not_failed_ok

end V3.UniswapV3Pool

/-- **A log that fails to apply**: a V3 pool is left exactly as it was; a Liquidity Book pool is,
unless the log is a v2.0 swap whose accumulator alone does not fit and whose early writes change
something. -/
theorem applyLog_failed_unchanged (p : LB.LBPool) (q : V3.UniswapV3Pool) (now : Nat) (l : Log) :
    ((Failed (p.applyLog now l).2 → (p.applyLog now l).1 = p) ↔ ¬ p.WritesEarly now l) ∧
    (Failed (q.applyLog now l).2 → (q.applyLog now l).1 = q) :=
  ⟨LB.LBPool.applyLog_failed now l, V3.UniswapV3Pool.applyLog_failed⟩

/-- A v2.0 swap into an empty bin with an accumulator of `2^32` returns an error and leaves the input
in the bin and the active id moved. -/
theorem applyLog_failed_writes :
    ¬ ∀ (p : LB.LBPool) (now : Nat) (l : Log), Failed (p.applyLog now l).2 → (p.applyLog now l).1 = p := by
  intro h
  have := congrArg LB.LBPool.activeId (h (LB.LBPool.oneBinPool 5) 0
    ⟨0, .event (.lb (.swapV20 8386607 true 7 0 (2 ^ 32))), none, none, none, none, some 1, false⟩ ⟨_, rfl⟩)
  revert this
  decide

end EvmDexPool

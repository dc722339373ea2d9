import EvmDexPool.V3.ContractLoop
import EvmDexPool.V3.InRange
import EvmDexPool.V3.Requote
import EvmDexPool.V3.WordEdges

/-!
# The code's loop follows the contract's

From a well-formed state every round of the code's loop is a step of the contract's, with the same price, tick and
liquidity and the same books (`round_step`), and every step that does not end the swap short is a round (`step_round`).
So a quote is what the contract's loop comes to, where that goes on from no tick and no edge without liquidity:
there the code breaks out (`quotes_follow`).
-/

namespace EvmDexPool.V3

open Fixed

namespace Contract.Call

variable {c : Call} {s s' r : State} {t t' : Int} {initialized initialized' : Bool}

/-! ## The search -/

/-- Two ticks that each lie no further are one. -/
theorem Nearer.antisymm (h : c.Nearer t t') (h' : c.Nearer t' t) : t = t' := by
  unfold Nearer at h h'
  split at h
  · rw [if_pos ‹_›] at h'
    omega
  · rw [if_neg ‹_›] at h'
    omega

/-- There is one tick to go for. -/
theorem Next.unique {tick : Int} (h : c.Next tick t initialized) (h' : c.Next tick t' initialized') :
    t = t' ∧ initialized = initialized' := by
  have hmixed : ∀ {u u' : Int}, c.Next tick u true → c.Next tick u' false → False := fun {u u'} hu hu' => by
    obtain ⟨v, hv⟩ := hu.key.1 rfl
    have hnear := hu.within
    rw [← hu'.edge rfl] at hnear
    have heq := Nearer.antisymm hnear (hu'.first u v hv hu.ahead)
    exact Bool.false_ne_true (hu'.key.2 ⟨v, heq ▸ hv⟩)
  cases initialized with
  | true =>
    cases initialized' with
    | true =>
      obtain ⟨v, hv⟩ := h.key.1 rfl
      obtain ⟨v', hv'⟩ := h'.key.1 rfl
      exact ⟨Nearer.antisymm (h.first t' v' hv' h'.ahead) (h'.first t v hv h.ahead), rfl⟩
    | false => exact (hmixed h h').elim
  | false =>
    cases initialized' with
    | true => exact (hmixed h' h).elim
    | false => exact ⟨(h.edge rfl).trans (h'.edge rfl).symm, rfl⟩

/-- The word search keeps within its word, and ends at its edge when it finds nothing. -/
theorem wordSearch_edge {tick : Int}
    (h : nextInitializedTick c.ticks tick c.zeroForOne (.wordBounded c.tickSpacing) = .ok (t, initialized)) :
    c.Nearer t (c.wordEdge tick) ∧ (initialized = false → t = c.wordEdge tick) := by
  unfold nextInitializedTick at h
  dsimp only at h
  split at h
  · cases h
  unfold Nearer wordEdge
  split at h
  · rw [if_pos ‹_›, if_pos ‹_›]
    rcases lastOr_spec h with ⟨rfl, hp, -⟩ | ⟨rfl, rfl, -⟩
    · exact ⟨(of_decide_eq_true hp).1, nofun⟩
    · exact ⟨le_rfl, fun _ => rfl⟩
  · rw [if_neg ‹_›, if_neg ‹_›]
    rcases headOr_spec h with ⟨rfl, hp, -⟩ | ⟨rfl, rfl, -⟩
    · exact ⟨(of_decide_eq_true hp).2, nofun⟩
    · exact ⟨le_rfl, fun _ => rfl⟩

/-- The word search finds it. -/
theorem next_of_search {tick : Int} (haligned : (TickSearch.wordBounded c.tickSpacing).Aligned c.ticks)
    (h : nextInitializedTick c.ticks tick c.zeroForOne (.wordBounded c.tickSpacing) = .ok (t, initialized)) :
    c.Next tick t initialized := by
  obtain ⟨hwithin, hedge⟩ := wordSearch_edge h
  cases hz : c.zeroForOne with
  | true =>
    rw [hz] at h
    obtain ⟨hle, hkey, hpass⟩ := nextInitializedTick_down h
    refine ⟨hkey, by rw [hz]; exact hle, fun k v hk hahead => ?_, hwithin, hedge⟩
    rw [hz] at hahead
    rw [Nearer, if_pos hz]
    exact hpass haligned k v hk hahead
  | false =>
    rw [hz] at h
    obtain ⟨hfound, hpass⟩ := nextInitializedTick_up h
    obtain ⟨hlt, hkey, -⟩ := hfound.resolve_right fun hnone => nomatch hnone.2.2.1
    refine ⟨hkey, by rw [hz]; exact hlt, fun k v hk hahead => ?_, hwithin, hedge⟩
    rw [hz] at hahead
    rw [Nearer, hz]
    exact hpass haligned k v hk hahead

/-! ## The books of a step -/

section Prices
variable {zeroForOne : Bool} {price liquidity amount target next : Nat} (hp : price < 2 ^ 160) (hl : liquidity < 2 ^ 128)
  (ht : target < 2 ^ 160) (hside : OnSide zeroForOne price target)
include hp hl ht hside

theorem nextFromInput_eq (ha : amount < 2 ^ 255) (hshort : ¬Covers zeroForOne price target liquidity amount)
    (h : getNextSqrtPriceFromInput price liquidity amount zeroForOne = .ok next) :
    next = priceAfterInput zeroForOne price liquidity amount := by
  have hl0 := liquidity_pos_of_short hshort
  unfold priceAfterInput
  cases zeroForOne with
  | true =>
    obtain ⟨hp0, -, rfl⟩ := getNextSqrtPriceFromInput_down_eq hl hp ha h
    rw [if_pos rfl]
    split
    · rw [← ceil_div_eq (by omega)]
      push_cast
      rfl
    · have ha0 : 0 < liquidity * 2 ^ 96 / price + amount := by
        refine Nat.add_pos_right _ (Nat.pos_of_ne_zero ?_)
        rintro rfl
        omega
      rw [← ceil_div_eq ha0, Nat.cast_add, ← Nat.floor_div_eq_div (K := ℚ)]
      push_cast
      rfl
  | false =>
    have hpt : price ≤ target := hside
    rw [Covers, if_neg Bool.false_ne_true] at hshort
    rw [getNextSqrtPriceFromInput_up_eq hl (by omega) ht hpt (by omega) h, if_neg Bool.false_ne_true,
      ← Nat.floor_div_eq_div (K := ℚ)]
    push_cast
    rfl

theorem nextFromOutput_eq (hp0 : 0 < price) (ht0 : 0 < target) (ha : amount < 2 ^ 255)
    (hmore : Pays zeroForOne price target liquidity (amount + 1))
    (h : getNextSqrtPriceFromOutput price liquidity amount zeroForOne = .ok next) :
    next = priceAfterOutput zeroForOne price liquidity amount := by
  obtain ⟨hl0, hlt, hnext⟩ := nextFromOutput_returns hp0 hp ht0 ht hl hside ha hmore
  cases hnext.symm.trans h
  unfold priceAfterOutput
  cases zeroForOne with
  | true =>
    rw [if_pos rfl, if_pos rfl, ← ceil_div_eq hl0]
    push_cast
    rfl
  | false =>
    have hlt := hlt rfl
    rw [if_neg Bool.false_ne_true, if_neg Bool.false_ne_true, ← ceil_div_eq (by omega), Nat.cast_sub hlt.le]
    push_cast
    rfl

end Prices

/-- The code's call. -/
def code (c : Call) : SwapCall :=
  ⟨c.fee, c.ticks, .wordBounded c.tickSpacing, c.zeroForOne, c.limit, c.exactInput⟩

/-- The code's books: what is still to come in counts up, what is still to go out down. -/
def book (c : Call) (s : State) : SwapState :=
  ⟨if c.exactInput then s.left else -s.left, if c.exactInput then -s.other else s.other, s.price, s.tick, s.liquidity⟩

/-- A step of the code has the books of the contract's. -/
structure Books (c : Call) (s : State) (target : Nat) (step : SwapStep) : Prop where
  stop : step.sqrtRatioNextX96 = c.stopPrice s target
  paid : step.amountIn + step.feeAmount =
    c.input s (c.stopPrice s target) + c.feeAmount s target (c.stopPrice s target)
  got : step.amountOut = c.output s (c.stopPrice s target)

section Books
variable {target : Nat} {step : SwapStep} (hp0 : 0 < s.price) (hp : s.price < 2 ^ 160) (ht0 : 0 < target)
  (ht : target < 2 ^ 160) (hl : s.liquidity < 2 ^ 128) (hside : OnSide c.zeroForOne s.price target) (hfee : c.fee < MAX_FEE)
include hp0 ht0 hside hfee

theorem books_reach (hnext : step.sqrtRatioNextX96 = target)
    (hin : LeastIn c.zeroForOne s.price target s.liquidity c.fee step)
    (hout : MostOut c.zeroForOne s.price target s.liquidity step)
    (hfits : if c.exactInput then step.amountIn ≤ lessFee s.left c.fee else step.amountOut ≤ s.left) : Books c s target step := by
  have hceil : ⌈V3.exactInput c.zeroForOne s.liquidity s.price target⌉₊ = step.amountIn :=
    eq_of_forall_ge_iff fun k => (ceil_exactInput_le hp0 ht0 hside k).trans (hin.amountIn k).symm
  have hfloor : ⌊exactOutput c.zeroForOne s.liquidity s.price target⌋₊ = step.amountOut :=
    eq_of_forall_le_iff fun k => (le_floor_exactOutput hp0 ht0 hside k).trans (hout k).symm
  have hstop : c.stopPrice s target = target := by
    unfold stopPrice
    rw [hceil, hfloor, afterFee_eq _ hfee]
    split at hfits
    · rw [if_pos ‹_›, if_pos hfits]
    · rw [if_neg ‹_›, if_pos hfits]
  have hfeeOn : feeOn c.fee step.amountIn = step.feeAmount := by
    rw [feeOn_eq _ hfee]
    refine eq_of_forall_ge_iff fun k => ?_
    rw [ceilDiv_le_iff (Nat.sub_pos_of_lt hfee), hin.feeAmount k, Nat.mul_comm k]
  refine ⟨hnext.trans hstop.symm, ?_, ?_⟩
  · rw [hstop, feeAmount, if_neg fun h => h.2 rfl, input, hceil, hfeeOn]
  · rw [hstop, output, hfloor]
    split
    · rfl
    · rw [if_neg ‹_›] at hfits
      exact (min_eq_right hfits).symm

include hp ht hl

theorem books_shortIn (hmode : c.exactInput = true) (ha : s.left < 2 ^ 255)
    (hshort : ¬Covers c.zeroForOne s.price target s.liquidity (lessFee s.left c.fee))
    (hnext : getNextSqrtPriceFromInput s.price s.liquidity (lessFee s.left c.fee) c.zeroForOne = .ok step.sqrtRatioNextX96)
    (hout : outputDelta c.zeroForOne s.price step.sqrtRatioNextX96 s.liquidity = .ok step.amountOut)
    (hsum : step.amountIn + step.feeAmount = s.left) : Books c s target step := by
  have hless := lessFee_le s.left c.fee
  obtain ⟨hon, hpast, hcovers⟩ := nextFromInput_mem hp hl hside ht (by omega) hshort hnext
  have hmem := onSide_mem hon hpast
  have hn0 : 0 < step.sqrtRatioNextX96 := by omega
  obtain ⟨y, hy, hpays⟩ := outputDelta_eq hp0 hp hn0 (by omega) hl hon
  cases hy.symm.trans hout
  have hne : step.sqrtRatioNextX96 ≠ target := fun he => hshort (he ▸ hcovers)
  have hstop : c.stopPrice s target = step.sqrtRatioNextX96 := by
    unfold stopPrice
    rw [if_pos hmode, afterFee_eq _ hfee, if_neg fun h => hshort ((ceil_exactInput_le hp0 ht0 hside _).1 h)]
    exact (nextFromInput_eq hp hl ht hside (by omega) hshort hnext).symm
  have hinput : c.input s step.sqrtRatioNextX96 ≤ lessFee s.left c.fee := (ceil_exactInput_le hp0 hn0 hon _).2 hcovers
  refine ⟨hstop.symm, ?_, ?_⟩
  · rw [hstop, feeAmount, if_pos ⟨hmode, hne⟩]
    omega
  · rw [hstop, output, if_pos hmode]
    exact eq_of_forall_le_iff fun k => (hpays k).trans (le_floor_exactOutput hp0 hn0 hon k).symm

theorem books_shortOut (hmode : ¬c.exactInput) (ha : s.left < 2 ^ 255)
    (hmore : Pays c.zeroForOne s.price target s.liquidity (s.left + 1))
    (hnext : getNextSqrtPriceFromOutput s.price s.liquidity s.left c.zeroForOne = .ok step.sqrtRatioNextX96)
    (hin : inputDelta c.zeroForOne s.price step.sqrtRatioNextX96 s.liquidity = .ok step.amountIn)
    (hf : mulDivRoundingUp step.amountIn c.fee (MAX_FEE - c.fee) = .ok step.feeAmount)
    (hout : step.amountOut = s.left) : Books c s target step := by
  have hfee' : c.fee < 1000000 := hfee
  obtain ⟨hon, hpast, hpays⟩ := nextFromOutput_mem hp hl hside ha hmore hnext
  have hmem := onSide_mem hon hpast
  have hn0 : 0 < step.sqrtRatioNextX96 := by omega
  obtain ⟨x, hx, hcovers⟩ := inputDelta_eq hp0 hp hn0 (by omega) hl hon
  cases hx.symm.trans hin
  have hxlt := inputDelta_lt hp0 hp hn0 (by omega) hl hon hin
  have hstop : c.stopPrice s target = step.sqrtRatioNextX96 := by
    have hfar : ¬⌊exactOutput c.zeroForOne s.liquidity s.price target⌋₊ ≤ s.left := by
      have := (le_floor_exactOutput hp0 ht0 hside _).2 hmore
      omega
    unfold stopPrice
    rw [if_neg hmode, if_neg hfar]
    exact (nextFromOutput_eq hp hl ht hside hp0 ht0 ha hmore hnext).symm
  have hinput : c.input s step.sqrtRatioNextX96 = step.amountIn :=
    eq_of_forall_ge_iff fun k => (ceil_exactInput_le hp0 hn0 hon k).trans (hcovers k).symm
  refine ⟨hstop.symm, ?_, ?_⟩
  · rw [hstop, feeAmount, if_neg fun h => hmode h.1, hinput, feeOn_eq _ hfee]
    rw [(mulDivRoundingUp_ok (by omega) (by omega) (by unfold MAX_FEE; omega) hf).2.2]
  · rw [hstop, output, if_neg hmode, hout]
    exact (min_eq_left ((le_floor_exactOutput hp0 hn0 hon _).2 hpays)).symm

/-- A step to where the price is moves nothing, whichever direction it reads off its prices. -/
theorem books_self (ha : s.left < 2 ^ 255) (heq : s.price = target)
    (h : computeSwapStep s.price target s.liquidity (c.book s).amountSpecifiedRemaining c.fee = .ok step) :
    Books c s target step := by
  have hr : -2 ^ 255 ≤ (c.book s).amountSpecifiedRemaining ∧ (c.book s).amountSpecifiedRemaining < 2 ^ 255 := by
    unfold book
    dsimp only
    split <;> omega
  obtain ⟨hnext, hin, hout, hf⟩ := computeSwapStep_self hp ht0 ht hl (hfee.trans (by decide)) heq h
  refine books_reach hp0 ht0 hside hfee hnext ?_ ?_ ?_
  · rw [heq]
    exact SwapCall.leastIn_self hin hf
  · rw [heq]
    exact SwapCall.mostOut_self ht0 hout
  · rw [hin, hout]
    split <;> exact Nat.zero_le _

/-- **The books of a step.** -/
theorem books_step (ha : s.left < 2 ^ 255) (hleft : 0 < s.left)
    (h : computeSwapStep s.price target s.liquidity (c.book s).amountSpecifiedRemaining c.fee = .ok step) :
    Books c s target step := by
  have hdir : decide (s.price ≥ target) = c.zeroForOne ∨ s.price = target := by
    cases hz : c.zeroForOne with
    | true =>
      rw [hz] at hside
      exact .inl (decide_eq_true hside)
    | false =>
      rw [hz] at hside
      have hle : s.price ≤ target := hside
      rcases hle.eq_or_lt with heq | hlt
      · exact .inr heq
      · exact .inl (decide_eq_false (by omega))
  rcases hdir with hdir | heq
  swap
  · exact books_self hp0 hp ht0 ht hl hside hfee ha heq h
  obtain ⟨x, hx, hcovers⟩ := inputDelta_eq hp0 hp ht0 ht hl hside
  obtain ⟨y, hy, hpays⟩ := outputDelta_eq hp0 hp ht0 ht hl hside
  have hfee' : c.fee < 1000000 := hfee
  unfold book at h
  dsimp only at h
  by_cases hmode : c.exactInput = true
  · rw [if_pos hmode, SwapCall.computeSwapStep_exactIn (Int.natCast_nonneg _), hdir, Int.toNat_natCast] at h
    rcases exactInStep_cases hp0 hp ht0 ht hl hside hfee ha h with
      ⟨hnext, hless, hin, hout, hf⟩ | ⟨hshort, hnext, hout, hin, hf⟩
    · cases hx.symm.trans hin
      cases hy.symm.trans hout
      refine books_reach hp0 ht0 hside hfee hnext ⟨hcovers, fun k => ?_⟩ hpays (by rw [if_pos hmode]; exact hless)
      rw [hf, ceilDiv_le_iff (Nat.sub_pos_of_lt hfee), Nat.mul_comm k]
    · have hless := lessFee_le s.left c.fee
      exact books_shortIn hp0 hp ht0 ht hl hside hfee hmode ha hshort hnext hout (by omega)
  · rw [if_neg hmode] at h
    have hstep := computeSwapStep_exactOut (by omega) h
    rw [hdir, Int.neg_neg, Int.toNat_natCast] at hstep
    obtain ⟨next, rfl, hin, hf, hcase⟩ := exactOutStep_cases hp0 hp ht0 ht hl hside hstep
    rw [feeComplement_eq hfee] at hf
    rcases hcase with ⟨hnext, hle, hout⟩ | ⟨hmore, hout, hnext⟩
    · rw [hnext] at hin
      cases hx.symm.trans hin
      cases hy.symm.trans hout
      have hxlt := inputDelta_lt hp0 hp ht0 ht hl hside hx
      obtain ⟨hc, -, hceil⟩ := mulDivRoundingUp_ok (by omega) (by omega) (by unfold MAX_FEE; omega) hf
      refine books_reach hp0 ht0 hside hfee hnext ⟨hcovers, fun k => ?_⟩ hpays (by rw [if_neg hmode]; exact hle)
      rw [hceil, ceilDiv_le_iff hc, Nat.mul_comm k]
    · exact books_shortOut hp0 hp ht0 ht hl hside hfee hmode ha hmore hnext hin hf hout

end Books

/-! ## A round and a step -/

@[simp] theorem goesOn_book : c.code.goesOn (c.book s) ↔ c.goesOn s := by
  unfold SwapCall.goesOn goesOn book code
  dsimp only
  split <;> simp

theorem crossTick_iff {liquidity liquidity' : Nat} :
    c.code.crossTick liquidity t = .ok liquidity' ↔ c.Crosses t liquidity liquidity' := by
  have hcode : c.code.crossTick liquidity t = (getTick c.ticks t >>= fun tick =>
      if c.zeroForOne then
        if tick.liquidityNet = -2 ^ 127 then .error .overflow else addDelta liquidity (-tick.liquidityNet)
      else addDelta liquidity tick.liquidityNet) := rfl
  constructor
  · intro h
    obtain ⟨tick, htick, hword, hsum⟩ := SwapCall.crossTick_ok h
    refine ⟨⟨tick, htick, fun hz hmin => ?_, hsum⟩, hword⟩
    have htick : c.ticks[t]? = some tick := htick
    rw [hcode, getTick, htick] at h
    dsimp only at h
    rw [ok_bind, if_pos hz, if_pos hmin] at h
    cases h
  · rintro ⟨⟨tick, htick, hmin, hsum⟩, hword⟩
    rw [hcode, getTick, htick]
    dsimp only
    rw [ok_bind]
    have hadd : ∀ y : Int, (liquidity' : Int) = liquidity + y → addDelta liquidity y = .ok liquidity' := fun y hy => by
      unfold addDelta
      rw [if_pos (by omega)]
      exact congrArg Except.ok (by omega)
    split at hsum
    · rw [if_pos ‹_›, if_neg (hmin ‹_›)]
      exact hadd _ hsum
    · rw [if_neg ‹_›]
      exact hadd _ hsum

/-- A state between two steps: the price on this side of the limit and in the range of its tick, with the liquidity of
that range. -/
structure Abides (c : Call) (s : State) : Prop where
  price_lt : s.price < 2 ^ 160
  liquidity_lt : s.liquidity < 2 ^ 128
  left_lt : s.left < 2 ^ 255
  within : OnSide c.zeroForOne s.price c.limit
  consistent : c.code.Consistent (c.book s)

/-- The code at a state of the contract's, on its way from `s₀`. -/
structure Mirrors (c : Call) (s₀ : SwapState) (s : State) : Prop where
  steady : c.code.Steady (c.book s)
  consistent : c.code.Consistent (c.book s)
  left : s.left < 2 ^ 255
  room : if c.exactInput then SwapCall.Paid c.code s₀ (c.book s) s.other
    else SwapCall.Charged c.code (2 ^ 238) (c.book s) s.other

variable {s₀ u : SwapState} {stop : Bool} {step : SwapStep}

theorem Mirrors.books (hg : c.code.Grounded) (hm : Mirrors c s₀ s) (hgo : c.goesOn s)
    (h : SwapCall.Onward c.code (c.book s) u stop t initialized step) : Books c s (c.target t) step :=
  books_step h.pos hm.steady.fits.price (hg.target_mem t).1 (hg.target_mem t).2 hm.steady.fits.liquidity h.side hg.fee hm.left
    (Nat.pos_of_ne_zero hgo.1) h.swapStep

/-- What a round adds to what the swap came to. -/
theorem Mirrors.roomAfter (hg : c.code.Grounded) (hs₀ : s₀.sqrtPriceX96 < 2 ^ 160) (hm : Mirrors c s₀ s) (hgo : c.goesOn s)
    (hround : c.code.round (c.book s) = .ok (u, stop))
    (h : SwapCall.Onward c.code (c.book s) u stop t initialized step) :
    if c.exactInput then SwapCall.Paid c.code s₀ u (c.settle s (c.target t)).other
      else SwapCall.Charged c.code (2 ^ 238) u (c.settle s (c.target t)).other := by
  obtain ⟨-, hpaid, hgot⟩ := hm.books hg hgo h
  have hroom := hm.room
  unfold settle
  dsimp only
  rw [← hpaid, ← hgot]
  by_cases hmode : c.exactInput = true
  · rw [if_pos hmode] at hroom ⊢
    rw [if_pos hmode]
    exact h.paid hg hmode hs₀ hm.steady.fits hroom
  · rw [if_neg hmode] at hroom ⊢
    rw [if_neg hmode]
    exact h.charged hg hmode (by decide) hm.steady hm.consistent (goesOn_book.2 hgo) hround hroom

/-- The books after the step of a round. -/
theorem Mirrors.account (hg : c.code.Grounded) (hs₀ : s₀.sqrtPriceX96 < 2 ^ 160) (hm : Mirrors c s₀ s) (hgo : c.goesOn s)
    (hround : c.code.round (c.book s) = .ok (u, stop))
    (h : SwapCall.Onward c.code (c.book s) u stop t initialized step) :
    c.code.account (c.book s) step = c.book (c.settle s (c.target t)) := by
  obtain ⟨hstop, hpaid, hgot⟩ := hm.books hg hgo h
  have hroom := hm.roomAfter hg hs₀ hgo hround h
  obtain ⟨-, -, hcalc⟩ := h.ending.state
  obtain ⟨hrem, hsigned, -⟩ := SwapCall.account_remaining hm.steady.fits.remaining (goesOn_book.2 hgo).1 h.ok
  have hprice := SwapCall.account_price (c := c.code) (s := c.book s) step
  have htick := SwapCall.account_tick (c := c.code) (s := c.book s) step
  have hliq := SwapCall.account_liquidity (c := c.code) (s := c.book s) step
  rw [SwapCall.Signed] at hsigned
  generalize c.code.account (c.book s) step = a at *
  obtain ⟨rem, came, price, tick, liquidity⟩ := a
  dsimp only at *
  subst hprice htick hliq
  unfold book settle at *
  dsimp only at *
  rw [← hpaid, ← hgot, ← hstop] at *
  rw [SwapState.mk.injEq]
  have hcode : c.code.exactInput = c.exactInput := rfl
  cases hmode : c.exactInput with
  | true =>
    simp only [hcode, hmode, if_true] at hrem hsigned hroom ⊢
    exact ⟨by omega, hcalc.symm.trans hroom.calculated, trivial, trivial, trivial⟩
  | false =>
    simp only [hcode, hmode, Bool.false_eq_true, if_false] at hrem hsigned hroom ⊢
    exact ⟨by omega, hcalc.symm.trans hroom.calculated, trivial, trivial, trivial⟩

/-- The state after a round mirrors the contract's. -/
theorem Mirrors.round (hg : c.code.Grounded) (hs₀ : s₀.sqrtPriceX96 < 2 ^ 160) (hm : Mirrors c s₀ s) (hgo : c.goesOn s)
    (hround : c.code.round (c.book s) = .ok (u, stop))
    (h : SwapCall.Onward c.code (c.book s) u stop t initialized step) (hr : u = c.book r)
    (hother : r.other = (c.settle s (c.target t)).other) (hleft : r.left = (c.settle s (c.target t)).left) : Mirrors c s₀ r := by
  have hroom := hm.roomAfter hg hs₀ hgo hround h
  rw [hr, ← hother] at hroom
  refine ⟨hr ▸ h.steady hg hm.steady (goesOn_book.2 hgo), hr ▸ (h.advances hg hm.consistent).consistent, ?_, hroom⟩
  rw [hleft]
  exact (Nat.sub_le _ _).trans_lt hm.left

/-- **A round of the code is a step of the contract.** -/
theorem round_step (hg : c.code.Grounded) (hs₀ : s₀.sqrtPriceX96 < 2 ^ 160) (hm : Mirrors c s₀ s) (hgo : c.goesOn s)
    (hround : c.code.round (c.book s) = .ok (u, stop)) :
    ∃ r, u = c.book r ∧ c.Step s r ∧ Mirrors c s₀ r ∧ (stop = true → r.liquidity = 0) ∧
      (stop = false → r.liquidity ≠ 0 ∨ ¬c.goesOn r) := by
  obtain ⟨t, initialized, step, ho⟩ := hm.steady.onward hg (goesOn_book.2 hgo) hround
  have hnext : c.Next s.tick t initialized := next_of_search hg.aligned ho.search
  have hstop : step.sqrtRatioNextX96 = (c.settle s (c.target t)).price := (hm.books hg hgo ho).stop
  have haccount := hm.account hg hs₀ hgo hround ho
  have hmirrors := fun r => hm.round (r := r) hg hs₀ hgo hround ho
  have hshort := ho.short hm.steady.fits (goesOn_book.2 hgo)
  cases ho.ending with
  | crossed liquidity hprice hliq =>
    rw [haccount] at hmirrors ⊢
    refine ⟨_, rfl, .crosses hnext (hstop.symm.trans hprice) ?_, hmirrors _ rfl rfl rfl, of_decide_eq_true, fun h =>
      .inl (of_decide_eq_false h)⟩
    cases initialized with
    | true => exact crossTick_iff.1 hliq
    | false => exact hliq
  | moved tick hprice hmoved htick =>
    have hlt := ho.fits.price
    rw [ho.ending.state.1] at hlt
    obtain ⟨hmem, hlow, hhigh⟩ := getTickAtSqrtRatio_spec hlt htick
    rw [haccount] at hmirrors hshort ⊢
    rw [hstop] at hprice hmoved hlow hhigh
    refine ⟨{ c.settle s (c.target t) with tick := tick }, rfl, .stops hnext hprice ?_, hmirrors _ rfl rfl rfl, nofun, fun _ =>
      .inr fun hgo' => hshort (hstop ▸ hprice) (goesOn_book.2 hgo')⟩
    rw [if_neg (show ¬_ = s.price from hmoved)]
    have hmax := (sqrtRatio_mem (t := tick + 1) (by omega)).2
    exact ⟨hhigh.trans_le hmax, ⟨hmem.1, hmem.2.le⟩, hlow, fun _ => hhigh⟩
  | stayed hprice hstay =>
    rw [haccount] at hmirrors hshort ⊢
    rw [hstop] at hprice hstay
    refine ⟨{ c.settle s (c.target t) with tick := s.tick }, rfl, .stops hnext hprice ?_, hmirrors _ rfl rfl rfl, nofun, fun _ =>
      .inr fun hgo' => hshort (hstop ▸ hprice) (goesOn_book.2 hgo')⟩
    rw [if_pos (show _ = s.price from hstay)]

/-! ## A step and a round -/

/-- What remains has the sign of the mode. -/
theorem Abides.signed (hm : c.Abides s) : c.code.Signed (c.book s).amountSpecifiedRemaining := by
  have hleft := hm.left_lt
  have hmode : c.code.exactInput = c.exactInput := rfl
  unfold SwapCall.Signed book
  rw [hmode]
  dsimp only
  split <;> omega

theorem Mirrors.abides (hm : Mirrors c s₀ s) : c.Abides s :=
  ⟨hm.steady.fits.price, hm.steady.fits.liquidity, hm.left, hm.steady.within, hm.consistent⟩

/-- The target of a step is ahead of the price. -/
theorem Abides.side (hg : c.code.Grounded) (hm : c.Abides s) (hnext : c.Next s.tick t initialized) :
    OnSide c.zeroForOne s.price (c.target t) ∧ (c.zeroForOne = false → s.tick < SwapCall.clampTick t) := by
  have hahead := hnext.ahead
  have hlimit := hg.limit
  have hmem : MIN_TICK ≤ s.tick ∧ s.tick ≤ MAX_TICK := hm.consistent.mem
  have hlow : sqrtRatio s.tick ≤ s.price := hm.consistent.low
  have hwithin := hm.within
  unfold target
  cases hz : c.zeroForOne with
  | true =>
    rw [hz] at hahead hwithin
    have hle := SwapCall.sqrtRatio_clamp_mono (show t ≤ s.tick from hahead)
    rw [SwapCall.clampTick_of_mem hmem] at hle
    refine ⟨?_, nofun⟩
    rw [if_pos rfl]
    exact max_le (hle.trans hlow) hwithin
  | false =>
    rw [hz] at hahead hwithin
    have hwithin : s.price ≤ c.limit := hwithin
    have hlimit : c.limit < MAX_SQRT_RATIO := by
      have hcode : c.code.zeroForOne = false := hz
      rw [hcode] at hlimit
      exact hlimit.2
    have hlt : s.tick < t := hahead
    have hne : s.tick ≠ MAX_TICK := fun he => by
      rw [he, sqrtRatio_max] at hlow
      omega
    have hhigh : s.price ≤ sqrtRatio (s.tick + 1) := hm.consistent.high (show s.tick < MAX_TICK by omega)
    have hclamp : s.tick + 1 ≤ SwapCall.clampTick t := by unfold SwapCall.clampTick; omega
    have hmono := sqrtRatio_mono (by omega) hclamp (SwapCall.clampTick_mem t).2
    refine ⟨?_, fun _ => by omega⟩
    rw [if_neg Bool.false_ne_true]
    exact le_min (hhigh.trans hmono) hwithin

/-- The search and the step of a round towards the tick the contract goes for. -/
theorem Abides.takes (hg : c.code.Grounded) (hs : 0 < c.tickSpacing) (hm : c.Abides s) (hgo : c.goesOn s)
    (hnext : c.Next s.tick t initialized) :
    ∃ step, nextInitializedTick c.ticks s.tick c.zeroForOne (.wordBounded c.tickSpacing) = .ok (t, initialized) ∧
      computeSwapStep s.price (c.target t) s.liquidity (c.book s).amountSpecifiedRemaining c.fee = .ok step ∧
      Books c s (c.target t) step ∧
      StepOk (s.price ≥ c.target t) s.price (c.target t) s.liquidity c.fee (c.book s).amountSpecifiedRemaining step := by
  obtain ⟨t', initialized', hfound⟩ := nextInitializedTick_finds c.ticks s.tick c.zeroForOne (wordBounded_pos (show 1 ≤ c.tickSpacing by omega))
  obtain ⟨rfl, rfl⟩ := hnext.unique (next_of_search hg.aligned hfound)
  have hp0 : 0 < s.price := by
    have hmin : MIN_SQRT_RATIO ≤ sqrtRatio s.tick := (sqrtRatio_mem hm.consistent.mem).1
    have hlow : sqrtRatio s.tick ≤ s.price := hm.consistent.low
    exact (show 0 < MIN_SQRT_RATIO by decide).trans_le (hmin.trans hlow)
  obtain ⟨ht0, ht⟩ := hg.target_mem t
  have hleft := hm.left_lt
  have hr : -2 ^ 255 < (c.book s).amountSpecifiedRemaining ∧ (c.book s).amountSpecifiedRemaining < 2 ^ 255 := by
    unfold book
    dsimp only
    split <;> omega
  obtain ⟨step, hstep⟩ := computeSwapStep_returns hp0 hm.price_lt ht0 ht hm.liquidity_lt (hg.fee.trans (by decide)) hg.fee.ne
    (fun _ => hg.fee) hr
  exact ⟨step, hfound, hstep, books_step hp0 hm.price_lt ht0 ht hm.liquidity_lt (hm.side hg hnext).1 hg.fee hleft
    (Nat.pos_of_ne_zero hgo.1) hstep, computeSwapStep_ok hp0 hm.price_lt ht0 ht hm.liquidity_lt hg.fee ⟨hr.1.le, hr.2⟩ hstep⟩

/-- However a round towards its tick ends, it goes the swap's way. -/
theorem Abides.onward_of (hg : c.code.Grounded) (hm : c.Abides s) (hgo : c.goesOn s) (hnext : c.Next s.tick t initialized)
    (hfound : nextInitializedTick c.ticks s.tick c.zeroForOne (.wordBounded c.tickSpacing) = .ok (t, initialized))
    (hswap : computeSwapStep s.price (c.target t) s.liquidity (c.book s).amountSpecifiedRemaining c.fee = .ok step)
    (hok : StepOk (s.price ≥ c.target t) s.price (c.target t) s.liquidity c.fee (c.book s).amountSpecifiedRemaining step)
    (hend : SwapCall.Ending c.code (c.book s) (SwapCall.clampTick t) initialized step u stop) :
    SwapCall.Onward c.code (c.book s) u stop t initialized step := by
  have hside := (hm.side hg hnext).1
  have htarget : 0 < c.target t ∧ c.target t < 2 ^ 160 := hg.target_mem t
  have hp0 := computeSwapStep_pos htarget.1 hswap
  have hok' := SwapCall.stepOk_onSide hp0 hside hok
  refine ⟨hfound, hswap, hp0, fun hz => ?_, hside, hok', hend, ?_, hend.liquidity_lt hm.liquidity_lt, ?_⟩
  · have hahead := hnext.ahead
    have hz : c.zeroForOne = false := hz
    rw [hz] at hahead
    exact hahead
  · have hmem := onSide_mem hok'.onSide hok'.notPast
    have hprice := hm.price_lt
    rw [hend.state.1]
    omega
  · rw [hend.state.2.1]
    exact (SwapCall.account_remaining hm.signed (goesOn_book.2 hgo).1 hok).2.1

/-- A step of the contract does with the price, the tick and the liquidity what a round would. -/
theorem Abides.onward (hg : c.code.Grounded) (hs : 0 < c.tickSpacing) (hm : c.Abides s) (hgo : c.goesOn s) (hstep : c.Step s r) :
    ∃ u stop t initialized step, SwapCall.Onward c.code (c.book s) u stop t initialized step ∧
      u.sqrtPriceX96 = r.price ∧ u.tickCurrent = r.tick ∧ u.liquidity = r.liquidity := by
  cases hstep with
  | @crosses t initialized liquidity hnext hprice hliq =>
    obtain ⟨step, hfound, hswap, hbooks, hok⟩ := hm.takes hg hs hgo hnext
    have hcross : if initialized then c.code.crossTick (c.book s).liquidity (SwapCall.clampTick t) = .ok liquidity
        else liquidity = (c.book s).liquidity := by
      cases initialized with
      | true => exact crossTick_iff.2 hliq
      | false => exact hliq
    have hend : SwapCall.Ending c.code (c.book s) (SwapCall.clampTick t) initialized step _ _ :=
      .crossed liquidity (hbooks.stop.trans hprice) hcross
    exact ⟨_, _, t, initialized, step, hm.onward_of hg hgo hnext hfound hswap hok hend,
      (SwapCall.account_price step).trans hbooks.stop, rfl, rfl⟩
  | @stops t tick initialized hnext hprice htick =>
    obtain ⟨step, hfound, hswap, hbooks, hok⟩ := hm.takes hg hs hgo hnext
    have hshort : step.sqrtRatioNextX96 ≠ sqrtRatio (SwapCall.clampTick t) := fun he => hprice (hbooks.stop.symm.trans he)
    by_cases hstay : (c.settle s (c.target t)).price = s.price
    · rw [if_pos hstay] at htick
      have hend : SwapCall.Ending c.code (c.book s) (SwapCall.clampTick t) initialized step _ _ :=
        .stayed hshort (hbooks.stop.trans hstay)
      exact ⟨_, _, t, initialized, step, hm.onward_of hg hgo hnext hfound hswap hok hend,
        (SwapCall.account_price step).trans hbooks.stop, (SwapCall.account_tick step).trans htick.symm,
        SwapCall.account_liquidity step⟩
    · rw [if_neg hstay] at htick
      obtain ⟨hlt, hmem, hlow, hhigh⟩ := htick
      have hne : tick ≠ MAX_TICK := fun he => by
        rw [he, sqrtRatio_max] at hlow
        omega
      have htick := getTickAtSqrtRatio_floor ⟨hmem.1, by omega⟩ hlow (hhigh (by omega))
      rw [show (c.settle s (c.target t)).price = step.sqrtRatioNextX96 from hbooks.stop.symm] at htick
      have hend : SwapCall.Ending c.code (c.book s) (SwapCall.clampTick t) initialized step _ _ :=
        .moved tick hshort (fun he => hstay (hbooks.stop.symm.trans he)) htick
      exact ⟨_, _, t, initialized, step, hm.onward_of hg hgo hnext hfound hswap hok hend,
        (SwapCall.account_price step).trans hbooks.stop, rfl, SwapCall.account_liquidity step⟩

/-- **A step keeps the price in the range of its tick, with the liquidity of the range.** -/
theorem Abides.after (hg : c.code.Grounded) (hs : 0 < c.tickSpacing) (hm : c.Abides s) (hgo : c.goesOn s) (hstep : c.Step s r) :
    c.Abides r := by
  obtain ⟨u, stop, t, initialized, step, ho, hprice, htick, hliq⟩ := hm.onward hg hs hgo hstep
  obtain ⟨hmem, hlow, hhigh, hsum⟩ := (ho.advances hg hm.consistent).consistent
  have hwithin := ho.within
  unfold SwapCall.Within at hwithin
  rw [hprice] at hlow hhigh hwithin
  rw [htick] at hmem hlow hhigh hsum
  rw [hliq] at hsum
  refine ⟨hprice ▸ ho.fits.price, hliq ▸ ho.fits.liquidity, ?_, hwithin, hmem, hlow, hhigh, hsum⟩
  have hleft : r.left ≤ s.left := by
    cases hstep with
    | crosses => exact Nat.sub_le _ _
    | stops => exact Nat.sub_le _ _
  exact hleft.trans_lt hm.left_lt

theorem Run.abides {gaps : Bool} (hg : c.code.Grounded) (hs : 0 < c.tickSpacing) (h : c.Run gaps s r) (hm : c.Abides s) :
    c.Abides r := by
  induction h with
  | done => exact hm
  | step hgo hstep _ _ ih => exact ih (hm.after hg hs hgo hstep)

/-- A round is its step, settled. -/
theorem round_eq (hfound : nextInitializedTick c.ticks s.tick c.zeroForOne (.wordBounded c.tickSpacing) = .ok (t, initialized))
    (hstep : computeSwapStep s.price (c.target t) s.liquidity (c.book s).amountSpecifiedRemaining c.fee = .ok step) :
    c.code.round (c.book s) =
      c.code.settle (c.book s) (SwapCall.clampTick t) initialized (sqrtRatio (SwapCall.clampTick t)) step := by
  have hround : c.code.round (c.book s) =
      (nextInitializedTick c.ticks s.tick c.zeroForOne (.wordBounded c.tickSpacing) >>= fun found =>
        getSqrtRatioAtTick (SwapCall.clampTick found.1) >>= fun next =>
        computeSwapStep s.price (c.code.target next) s.liquidity (c.book s).amountSpecifiedRemaining c.fee >>= fun step =>
        c.code.settle (c.book s) (SwapCall.clampTick found.1) found.2 next step) := rfl
  have htarget : c.code.target (sqrtRatio (SwapCall.clampTick t)) = c.target t := rfl
  rw [hround, hfound, ok_bind, getSqrtRatioAtTick_eq (SwapCall.clampTick_mem t), ok_bind, htarget, hstep, ok_bind]

/-- A step makes progress, unless it ends the swap at the limit with something left. -/
theorem Abides.progress (hg : c.code.Grounded) (hm : c.Abides s) (hgo : c.goesOn s) (hnext : c.Next s.tick t initialized)
    (hbooks : Books c s (c.target t) step)
    (hok : StepOk (s.price ≥ c.target t) s.price (c.target t) s.liquidity c.fee (c.book s).amountSpecifiedRemaining step)
    (hr : c.goesOn (c.settle s (c.target t)) ∨ (c.settle s (c.target t)).left = 0) :
    ¬c.code.noProgress (c.book s) (SwapCall.clampTick t) (sqrtRatio (SwapCall.clampTick t)) step := by
  rintro ⟨hin, hout, hf, hstill⟩
  obtain ⟨hstop, hpaid, hgot⟩ := hbooks
  have hleft : (c.settle s (c.target t)).left = s.left := by
    unfold settle
    dsimp only
    rw [← hpaid, ← hgot, hin, hout, hf]
    split <;> rfl
  have hgo' : c.goesOn (c.settle s (c.target t)) := hr.resolve_right fun h0 => hgo.1 (hleft ▸ h0)
  rcases hstill with hne | ⟨hz, hle⟩
  · -- short of the tick without an amount, so at the limit
    have htarget : step.sqrtRatioNextX96 = c.target t := by
      by_contra hshort
      have hrem : (c.book s).amountSpecifiedRemaining = 0 := by
        rcases le_or_gt 0 (c.book s).amountSpecifiedRemaining with hpos | hneg
        · have := (hok.exactIn hpos).2 hshort
          omega
        · have := (hok.exactOut hneg).2 hshort
          omega
      exact (goesOn_book.2 hgo).1 hrem
    rcases SwapCall.target_eq_or (c := c.code) (sqrtRatio (SwapCall.clampTick t)) with h | h
    · exact hne (htarget.trans h)
    · exact hgo'.2 (hstop.symm.trans (htarget.trans h))
  · have hlt := (hm.side hg hnext).2 (Bool.eq_false_iff.2 hz)
    exact absurd hle (Int.not_le.2 hlt)

/-- **A step of the contract is a round of the code**, unless it ends the swap at the limit with something left. -/
theorem step_round (hg : c.code.Grounded) (hs : 0 < c.tickSpacing) (hs₀ : s₀.sqrtPriceX96 < 2 ^ 160) (hm : Mirrors c s₀ s)
    (hgo : c.goesOn s) (hstep : c.Step s r) (hr : c.goesOn r ∨ r.left = 0) :
    ∃ stop, c.code.round (c.book s) = .ok (c.book r, stop) := by
  have hmatch : ∀ {t initialized step stop u},
      nextInitializedTick c.ticks s.tick c.zeroForOne (.wordBounded c.tickSpacing) = .ok (t, initialized) →
      computeSwapStep s.price (c.target t) s.liquidity (c.book s).amountSpecifiedRemaining c.fee = .ok step →
      c.code.round (c.book s) = .ok (u, stop) → c.code.account (c.book s) step = c.book (c.settle s (c.target t)) :=
    fun {t initialized step stop u} hfound hstep hround => by
      obtain ⟨t', initialized', step', ho⟩ := hm.steady.onward hg (goesOn_book.2 hgo) hround
      cases hfound.symm.trans ho.search
      cases hstep.symm.trans ho.swapStep
      exact hm.account hg hs₀ hgo hround ho
  cases hstep with
  | @crosses t initialized liquidity hnext hprice hliq =>
    obtain ⟨step, hfound, hswap, hbooks, hok⟩ := hm.abides.takes hg hs hgo hnext
    have hprogress := hm.abides.progress hg hgo hnext hbooks hok hr
    have hstop : step.sqrtRatioNextX96 = sqrtRatio (SwapCall.clampTick t) := hbooks.stop.trans hprice
    have hround := round_eq hfound hswap
    unfold SwapCall.settle at hround
    dsimp only at hround
    rw [if_neg hprogress, if_pos hstop] at hround
    cases initialized with
    | true =>
      rw [if_pos rfl, show c.code.crossTick (c.book s).liquidity _ = .ok liquidity from crossTick_iff.2 hliq, ok_bind] at hround
      rw [hmatch hfound hswap hround] at hround
      exact ⟨_, hround⟩
    | false =>
      have hliq : liquidity = (c.book s).liquidity := hliq
      rw [if_neg Bool.false_ne_true, ok_bind] at hround
      rw [hmatch hfound hswap hround] at hround
      exact ⟨_, hliq ▸ hround⟩
  | @stops t tick initialized hnext hprice htick =>
    obtain ⟨step, hfound, hswap, hbooks, hok⟩ := hm.abides.takes hg hs hgo hnext
    have hprogress := hm.abides.progress hg hgo hnext hbooks hok hr
    have hstop : step.sqrtRatioNextX96 = (c.settle s (c.target t)).price := hbooks.stop
    have hround := round_eq hfound hswap
    unfold SwapCall.settle at hround
    dsimp only at hround
    rw [if_neg hprogress, if_neg (hstop ▸ hprice)] at hround
    by_cases hstay : (c.settle s (c.target t)).price = s.price
    · rw [if_pos hstay] at htick
      rw [if_neg (not_not.2 (show step.sqrtRatioNextX96 = (c.book s).sqrtPriceX96 from hstop.trans hstay))] at hround
      rw [hmatch hfound hswap hround] at hround
      subst htick
      exact ⟨_, hround⟩
    · rw [if_neg hstay] at htick
      obtain ⟨hlt, hmem, hlow, hhigh⟩ := htick
      have hne : tick ≠ MAX_TICK := fun he => by
        rw [he, sqrtRatio_max] at hlow
        omega
      have htick := getTickAtSqrtRatio_floor ⟨hmem.1, by omega⟩ hlow (hhigh (by omega))
      rw [← hstop] at htick
      rw [if_pos (show step.sqrtRatioNextX96 ≠ (c.book s).sqrtPriceX96 from hstop ▸ hstay), htick, ok_bind] at hround
      rw [hmatch hfound hswap hround] at hround
      exact ⟨_, hround⟩

/-! ## Runs -/

theorem book_remaining : (c.book s).amountSpecifiedRemaining = 0 ↔ s.left = 0 := by
  unfold book
  dsimp only
  split <;> omega

theorem book_injective (h : c.book s = c.book r) : s = r := by
  obtain ⟨left, other, price, tick, liquidity⟩ := s
  obtain ⟨left', other', price', tick', liquidity'⟩ := r
  unfold book at h
  rw [SwapState.mk.injEq] at h
  obtain ⟨hleft, hother, hprice, htick, hliq⟩ := h
  dsimp only at *
  rw [State.mk.injEq]
  split at hleft
  · rw [if_pos ‹_›, if_pos ‹_›] at hother
    exact ⟨by omega, by omega, hprice, htick, hliq⟩
  · rw [if_neg ‹_›, if_neg ‹_›] at hother
    exact ⟨by omega, by omega, hprice, htick, hliq⟩

/-- A state that is over stays. -/
theorem Run.over {gaps : Bool} (h : c.Run gaps s r) (hover : ¬c.goesOn s) : r = s := by
  cases h with
  | done => rfl
  | step hgo => exact absurd hgo hover

/-- **What the code's loop comes to is a run of the contract's.** -/
theorem loop_run (hg : c.code.Grounded) (hs₀ : s₀.sqrtPriceX96 < 2 ^ 160) {fuel : Nat} (hm : Mirrors c s₀ s)
    (h : c.code.loop fuel (c.book s) = .ok u) (hdone : u.amountSpecifiedRemaining = 0) :
    ∃ r, u = c.book r ∧ c.Run false s r := by
  induction fuel generalizing s with
  | zero => cases h
  | succ fuel ih =>
    by_cases hgo : c.goesOn s
    swap
    · exact ⟨s, SwapCall.loop_ended (fun hgo' => hgo (goesOn_book.1 hgo')) h, .done s⟩
    obtain ⟨_, u', stop, hfuel, hround, hrest⟩ := SwapCall.loop_goes (goesOn_book.2 hgo) h
    cases Nat.succ.inj hfuel
    obtain ⟨r, rfl, hstep, hm', -, hliq⟩ := round_step hg hs₀ hm hgo hround
    cases stop with
    | true =>
      have hu : u = c.book r := hrest
      rw [hu, book_remaining] at hdone
      exact ⟨r, hu, .step hgo hstep (.inr (.inr fun hgo' => hgo'.1 hdone)) (.done r)⟩
    | false =>
      obtain ⟨t, hu, hrun⟩ := ih hm' hrest
      exact ⟨t, hu, .step hgo hstep (.inr (hliq rfl)) hrun⟩

/-- **A run that uses the amount up is what the code's loop comes to.** -/
theorem run_loop (hg : c.code.Grounded) (hs : 0 < c.tickSpacing) (hs₀ : s₀.sqrtPriceX96 < 2 ^ 160) (h : c.Run false s r)
    (hm : Mirrors c s₀ s) (hdone : r.left = 0) :
    (∃ fuel, c.code.loop fuel (c.book s) = .ok (c.book r)) ∧ Mirrors c s₀ r := by
  induction h with
  | done s =>
    have hover : ¬c.code.goesOn (c.book s) := fun hgo => hgo.1 (book_remaining.2 hdone)
    refine ⟨⟨1, ?_⟩, hm⟩
    rw [SwapCall.loop, if_neg hover]
  | @step s s' t hgo hstep hgap hrest ih =>
    have hr : c.goesOn s' ∨ s'.left = 0 := by
      by_cases hgo' : c.goesOn s'
      · exact .inl hgo'
      · exact .inr (hrest.over hgo' ▸ hdone)
    obtain ⟨stop, hround⟩ := step_round hg hs hs₀ hm hgo hstep hr
    obtain ⟨s'', heq, -, hm', hstop, -⟩ := round_step hg hs₀ hm hgo hround
    cases book_injective heq
    have hgo' := goesOn_book.2 hgo
    cases stop with
    | true =>
      -- the code breaks out, where the run is over
      have hover : ¬c.goesOn s' := (hgap.resolve_left Bool.false_ne_true).resolve_left (not_not.2 (hstop rfl))
      cases hrest.over hover
      refine ⟨⟨1, ?_⟩, hm'⟩
      rw [SwapCall.loop, if_pos hgo', hround]
      rfl
    | false =>
      obtain ⟨⟨fuel, hloop⟩, hmt⟩ := ih hm' hdone
      refine ⟨⟨fuel + 1, ?_⟩, hmt⟩
      rw [SwapCall.loop, if_pos hgo', hround]
      exact hloop

/-- What a swap comes to has room in its word. -/
theorem Mirrors.other_lt (hs₀ : s₀.sqrtPriceX96 < 2 ^ 160) (hm : Mirrors c s₀ s) : s.other < 2 ^ 255 := by
  have hroom := hm.room
  split at hroom
  · have hle := hroom.room
    have hlt : outputRoom c.code.zeroForOne s₀.sqrtPriceX96 < 2 ^ 225 := outputRoom_lt hs₀
    omega
  · have hle := hroom.within
    omega

end Contract.Call

/-! ## Quotes -/

namespace UniswapV3Pool

open Contract

variable {p : UniswapV3Pool} {zeroForOne isExactInput : Bool} {amount fuel x : Nat}

/-- What swaps leave a pool in: as in a well-formed state, but that the price may be on the upper end of the range of its
tick. -/
structure Settled (p : UniswapV3Pool) : Prop where
  price_lt : p.sqrtPriceX96 < 2 ^ 160
  liquidity_lt : p.liquidity < 2 ^ 128
  mem : MIN_TICK ≤ p.tick ∧ p.tick ≤ MAX_TICK
  low : sqrtRatio p.tick ≤ p.sqrtPriceX96
  high : p.tick < MAX_TICK → p.sqrtPriceX96 ≤ sqrtRatio (p.tick + 1)
  ticks : TicksOk p.ticks p.tickSpacing
  liquidity_eq : (p.liquidity : Int) = netsUpTo p.ticks p.tick

theorem WellFormed.settled (h : p.WellFormed) : p.Settled :=
  ⟨h.price_lt, h.liquidity_lt, h.floor.1, h.floor.2.1, fun hmax => (h.floor.2.2 hmax).le, h.ticks, h.liquidity_eq⟩

theorem contractCall_code (hword : p.poolType ≠ .AlgebraV3) (ha : amount < 2 ^ 255) (h0 : 0 < amount) :
    (p.contractCall zeroForOne isExactInput).code = p.swapCall zeroForOne amount isExactInput := by
  have hmode := swapCall_mode p zeroForOne isExactInput ha h0
  have hsearch : p.tickSearch = .wordBounded p.tickSpacing := by
    unfold tickSearch
    split
    · exact absurd ‹_› hword
    · rfl
  unfold swapCall at hmode ⊢
  dsimp only at hmode
  rw [hmode, hsearch]
  rfl

theorem contractStart_book (ha : amount < 2 ^ 255) :
    (p.contractCall zeroForOne isExactInput).book (p.contractStart amount) = p.swapStart amount isExactInput := by
  unfold swapStart
  rw [amountSpecified_of_lt isExactInput ha]
  unfold Call.book contractStart contractCall
  dsimp only
  cases isExactInput <;> rfl

/-- The limit that a swap without one has is on the far side of the price. -/
theorem checkLimit_iff : (p.swapCall zeroForOne amount isExactInput).checkLimit p.sqrtPriceX96 = .ok () ↔
    if zeroForOne then (p.contractCall zeroForOne isExactInput).limit < p.sqrtPriceX96
    else p.sqrtPriceX96 < (p.contractCall zeroForOne isExactInput).limit := by
  have hmax : MAX_SQRT_RATIO - 1 < MAX_SQRT_RATIO := by decide
  rw [SwapCall.checkLimit_ok]
  unfold swapCall contractCall
  cases zeroForOne with
  | true =>
    simp only [if_true]
    exact and_iff_right (Nat.lt_succ_self _)
  | false =>
    simp only [Bool.false_eq_true, if_false]
    exact and_iff_right hmax

/-- A quote is a run of the loop that leaves nothing. -/
theorem calculateSwap_eq_ok : p.calculateSwap fuel zeroForOne amount isExactInput = .ok x ↔
    (p.swapCall zeroForOne amount isExactInput).checkLimit p.sqrtPriceX96 = .ok () ∧
      ∃ s, (p.swapCall zeroForOne amount isExactInput).loop fuel (p.swapStart amount isExactInput) = .ok s ∧
        s.amountSpecifiedRemaining = 0 ∧ s.amountCalculated ≠ -2 ^ 255 ∧ x = s.amountCalculated.natAbs := by
  constructor
  · intro h
    unfold calculateSwap at h
    obtain ⟨s, hswap, h⟩ := bind_eq_ok.1 h
    obtain ⟨_, rfl, hcheck, hloop⟩ := SwapCall.v3Swap_ok hswap
    refine ⟨hcheck, s, hloop, ?_⟩
    split at h
    · cases h
    split at h
    · cases h
    · exact ⟨not_not.1 ‹_›, ‹_›, (Except.ok.inj h).symm⟩
  · rintro ⟨hcheck, s, hloop, hrem, hmin, rfl⟩
    have hswap : v3Swap fuel p.fee p.sqrtPriceX96 p.tick p.liquidity p.ticks p.tickSearch zeroForOne
        (amountSpecified amount isExactInput) none = .ok s := bind_eq_ok.2 ⟨(), hcheck, hloop⟩
    unfold calculateSwap
    rw [hswap, ok_bind, if_neg (not_not.2 hrem), if_neg hmin]

/-- Nothing to swap comes to nothing. -/
theorem calculateSwap_zero_iff (hfuel : 0 < fuel) :
    p.calculateSwap fuel zeroForOne 0 isExactInput = .ok x ↔
      (p.contractCall zeroForOne isExactInput).Fills false (p.contractStart 0) x := by
  rw [calculateSwap_eq_ok, checkLimit_iff]
  constructor
  · rintro ⟨hlimit, s, hs, -, -, rfl⟩
    cases (loop_zero hfuel).symm.trans hs
    exact ⟨hlimit, _, .done _, rfl, rfl⟩
  · rintro ⟨hlimit, t, hrun, -, rfl⟩
    cases hrun.over fun hgo => hgo.1 rfl
    exact ⟨hlimit, _, loop_zero hfuel, swapStart_zero _, show (0 : Int) ≠ -2 ^ 255 by decide, rfl⟩

/-- The code at the start of a quote mirrors the contract. -/
theorem mirrors_start (hp : p.Settled) (hword : p.poolType ≠ .AlgebraV3) (hfee : p.fee < MAX_FEE) (ha : amount < 2 ^ 255)
    (h0 : 0 < amount) (hcheck : (p.swapCall zeroForOne amount isExactInput).checkLimit p.sqrtPriceX96 = .ok ()) :
    (p.contractCall zeroForOne isExactInput).code.Grounded ∧
      (p.contractCall zeroForOne isExactInput).Mirrors (p.swapStart amount isExactInput) (p.contractStart amount) := by
  have hspec := amountSpecified_of_lt isExactInput ha
  have hcode : (p.contractCall zeroForOne isExactInput).code = p.swapCall zeroForOne amount isExactInput :=
    contractCall_code hword ha h0
  have hconsistent : (p.swapCall zeroForOne amount isExactInput).Consistent (p.swapStart amount isExactInput) :=
    ⟨hp.mem, hp.low, hp.high, hp.liquidity_eq⟩
  have hg : (p.swapCall zeroForOne amount isExactInput).Grounded :=
    ⟨SwapCall.accepted_of_checkLimit hfee hp.price_lt hcheck, hp.ticks.aligned p.tickSearch_or,
      fun k v hk => (hp.ticks.keys k v hk).1, hp.ticks.cancel⟩
  have hsteady : (p.swapCall zeroForOne amount isExactInput).Steady (p.swapStart amount isExactInput) :=
    ⟨SwapCall.fits_start hp.price_lt hp.liquidity_lt (by rw [hspec]; split <;> omega),
      SwapCall.withinLimit_of_checkLimit hcheck, fun _ => hconsistent⟩
  refine ⟨hcode ▸ hg, ?_, ?_, ha, ?_⟩
  · rw [hcode, contractStart_book ha]
    exact hsteady
  · rw [hcode, contractStart_book ha]
    exact hconsistent
  · rw [hcode, contractStart_book ha]
    split
    · exact ⟨rfl, (Nat.zero_add _).le⟩
    · exact SwapCall.charged_start hp.mem

/-- Enough fuel is any that the loop ends with. -/
theorem loop_enough (hp : p.Settled) (hfee : p.fee < MAX_FEE) (ha : amount < 2 ^ 255)
    (hcheck : (p.swapCall zeroForOne amount isExactInput).checkLimit p.sqrtPriceX96 = .ok ()) (hfuel : 2 ^ 25 ≤ fuel) {n : Nat}
    {s : SwapState} (h : (p.swapCall zeroForOne amount isExactInput).loop n (p.swapStart amount isExactInput) = .ok s) :
    (p.swapCall zeroForOne amount isExactInput).loop fuel (p.swapStart amount isExactInput) = .ok s := by
  have hspec := amountSpecified_of_lt isExactInput ha
  have hfits : SwapCall.Fits (p.swapCall zeroForOne amount isExactInput) (p.swapStart amount isExactInput) :=
    SwapCall.fits_start hp.price_lt hp.liquidity_lt (by rw [hspec]; split <;> omega)
  have hrank : (p.swapCall zeroForOne amount isExactInput).rank (p.swapStart amount isExactInput) < 2 ^ 25 - 1 := by
    have hmem : MIN_TICK ≤ p.tick ∧ p.tick ≤ MAX_TICK := hp.mem
    have hmin : (-2 ^ 23 : Int) ≤ MIN_TICK := by decide
    have hmax : MAX_TICK < 2 ^ 23 := by decide
    exact SwapCall.rank_lt ⟨hmin.trans hmem.1, hmem.2.trans_lt hmax⟩
  have hlt : 2 ^ 25 - 1 < fuel := by omega
  have hends := SwapCall.loop_ends (SwapCall.accepted_of_checkLimit hfee hp.price_lt hcheck).admitted hfits
    (SwapCall.withinLimit_of_checkLimit hcheck) hrank hlt
  have hn : Ends ((p.swapCall zeroForOne amount isExactInput).loop n (p.swapStart amount isExactInput)) := by
    rw [h]
    exact ends_ok _
  rw [← SwapCall.loop_fuel hends (Nat.le_max_left fuel n), SwapCall.loop_fuel hn (Nat.le_max_right fuel n), h]

theorem calculateSwap_iff (hp : p.Settled) (hs : 0 < p.tickSpacing) (hword : p.poolType ≠ .AlgebraV3) (hfee : p.fee < MAX_FEE)
    (ha : amount < 2 ^ 255) (hfuel : 2 ^ 25 ≤ fuel) :
    p.calculateSwap fuel zeroForOne amount isExactInput = .ok x ↔
      (p.contractCall zeroForOne isExactInput).Fills false (p.contractStart amount) x := by
  rcases Nat.eq_zero_or_pos amount with rfl | h0
  · exact calculateSwap_zero_iff (by omega)
  have hcode : (p.contractCall zeroForOne isExactInput).code = p.swapCall zeroForOne amount isExactInput :=
    contractCall_code hword ha h0
  have hbook : (p.contractCall zeroForOne isExactInput).book (p.contractStart amount) = p.swapStart amount isExactInput :=
    contractStart_book ha
  rw [calculateSwap_eq_ok]
  constructor
  · rintro ⟨hcheck, s, hloop, hrem, -, rfl⟩
    obtain ⟨hg, hm⟩ := mirrors_start hp hword hfee ha h0 hcheck
    rw [← hcode, ← hbook] at hloop
    obtain ⟨r, rfl, hrun⟩ := Call.loop_run hg hp.price_lt hm hloop hrem
    refine ⟨checkLimit_iff.1 hcheck, r, hrun, Call.book_remaining.1 hrem, ?_⟩
    unfold Call.book
    dsimp only
    split <;> omega
  · rintro ⟨hlimit, r, hrun, hleft, rfl⟩
    have hcheck : (p.swapCall zeroForOne amount isExactInput).checkLimit p.sqrtPriceX96 = .ok () := checkLimit_iff.2 hlimit
    obtain ⟨hg, hm⟩ := mirrors_start hp hword hfee ha h0 hcheck
    obtain ⟨⟨n, hloop⟩, hmr⟩ := Call.run_loop hg hs hp.price_lt hrun hm hleft
    rw [hcode, hbook] at hloop
    have hother := hmr.other_lt hp.price_lt
    refine ⟨hcheck, _, loop_enough hp hfee ha hcheck hfuel hloop, Call.book_remaining.2 hleft, ?_, ?_⟩
    · unfold Call.book
      dsimp only
      split <;> omega
    · unfold Call.book
      dsimp only
      split <;> omega

end UniswapV3Pool

/-- **V3 quotes follow the contract.** On a settled word-bounded pool a quote of either kind comes to exactly what
the contract's loop comes to when it uses the amount up without a step from where there is no liquidity, and there is
a quote exactly when there is such a run. -/
theorem quotes_follow (p : UniswapV3Pool) (hp : p.Settled) (hs : 0 < p.tickSpacing) (hword : p.poolType ≠ .AlgebraV3)
    (hfee : p.fee < MAX_FEE) (hpred : p.feeUnpredictable = false) {token : Address} (htoken : token = p.token0 ∨ token = p.token1)
    {amount fuel : Nat} (ha : amount < 2 ^ 255) (hfuel : 2 ^ 25 ≤ fuel) (x : Nat) :
    (p.calculateExactInput fuel token amount = .ok x ↔
      (p.contractCall (token = p.token0) true).Fills false (p.contractStart amount) x) ∧
    (p.calculateExactOutput fuel token amount = .ok x ↔
      (p.contractCall (token ≠ p.token0) false).Fills false (p.contractStart amount) x) := by
  have hiff : ∀ zeroForOne isExactInput, p.calculateSwap fuel zeroForOne amount isExactInput = .ok x ↔
      (p.contractCall zeroForOne isExactInput).Fills false (p.contractStart amount) x :=
    fun _ _ => UniswapV3Pool.calculateSwap_iff hp hs hword hfee ha hfuel
  unfold UniswapV3Pool.calculateExactInput UniswapV3Pool.calculateExactOutput
  rw [hpred, if_neg Bool.false_ne_true, if_neg Bool.false_ne_true]
  by_cases h0 : token = p.token0
  · rw [if_pos h0, if_pos h0, decide_eq_true h0, decide_eq_false (not_not.2 h0)]
    exact ⟨hiff true true, hiff false false⟩
  · have h1 := htoken.resolve_left h0
    rw [if_neg h0, if_neg h0, if_pos h1, if_pos h1, decide_eq_false h0, decide_eq_true h0]
    exact ⟨hiff false true, hiff true false⟩

/-- A thousand of token 0 keeps within the range. -/
theorem quotes_follow_range :
    (rangePool.contractCall true true).Fills false (rangePool.contractStart 1000) 996 := by
  have hquote : rangePool.calculateExactInput (2 ^ 25) 2 1000 = .ok 996 := by decide +kernel
  exact ((quotes_follow rangePool rangePool_wellFormed.settled (by decide) (by decide) (by decide) (by decide) (.inl (rfl : (2 : Address) = rangePool.token0))
    (by decide) le_rfl 996).1).1 hquote

end EvmDexPool.V3

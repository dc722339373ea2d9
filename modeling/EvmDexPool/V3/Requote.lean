import EvmDexPool.V3.Charges
import EvmDexPool.V3.Monotone

/-!
# An exact output, asked for again as an exact input

An exact-input run that spends what an exact-output run was charged takes the same rounds, until the
exact-output run gets the last of its amount short of a target. There the price update of the input goes
at least as far as that of the output, in full precision: where the amount of token 0 times the price
does not fit its word, the update rounds up once more and can stop a unit short (`requote_covers_fails`).
-/

namespace EvmDexPool.V3

open Fixed

section Step
variable {zeroForOne : Bool} {price target liquidity owed amount fee : Nat} {st st' : SwapStep}
  (hp0 : 0 < price) (hp : price < 2 ^ 160) (ht0 : 0 < target) (ht : target < 2 ^ 160) (hl : liquidity < 2 ^ 128)
  (hside : OnSide zeroForOne price target) (hfee : fee < MAX_FEE)

include hp hl in
/-- An input that covers a move takes the price at least as far. -/
theorem nextFromInput_reaches {stop next : Nat} (hside : OnSide zeroForOne price target) (hon : OnSide zeroForOne price stop)
    (ht : target < 2 ^ 160) (ha : amount < 2 ^ 255) (hshort : ¬Covers zeroForOne price target liquidity amount)
    (hfull : zeroForOne = true → liquidity * 2 ^ 96 + amount * price < 2 ^ 256)
    (hcovers : Covers zeroForOne price stop liquidity amount)
    (h : getNextSqrtPriceFromInput price liquidity amount zeroForOne = .ok next) : OnSide zeroForOne stop next := by
  cases zeroForOne with
  | true =>
    have hon : stop ≤ price := hon
    rw [Covers, if_pos rfl] at hcovers
    refine getNextSqrtPriceFromInput_down_le hl hp ha (hfull rfl) ?_ h
    clear hfull hshort h
    generalize liquidity * 2 ^ 96 = N at *
    calc N * price = N * (price - stop) + N * stop := by rw [← Nat.mul_add, Nat.sub_add_cancel hon]
      _ ≤ amount * (price * stop) + N * stop := Nat.add_le_add_right hcovers _
      _ = stop * (N + amount * price) := by ring
  | false =>
    have hpt : price ≤ target := hside
    have hon : price ≤ stop := hon
    rw [Covers, if_neg Bool.false_ne_true] at hshort hcovers
    have hl0 : 0 < liquidity := Nat.pos_of_ne_zero fun h0 => hshort (by rw [h0, Nat.zero_mul]; exact Nat.zero_le _)
    have heq := getNextSqrtPriceFromInput_up_eq hl (by omega) ht hpt (by omega) h
    have hreach : stop - price ≤ amount * 2 ^ 96 / liquidity := by
      rw [Nat.le_div_iff_mul_le hl0, Nat.mul_comm]
      exact hcovers
    change stop ≤ next
    omega

include hp0 hp ht0 ht hl hside hfee

/-- What an exact-output step charged, as an exact input: the same step, or the last one, given at least what was
owed. -/
theorem exactInStep_answers (hr : owed < 2 ^ 255) (ha : amount < 2 ^ 255)
    (hfull : zeroForOne = true → ¬Covers zeroForOne price target liquidity (lessFee amount fee) →
      liquidity * 2 ^ 96 + lessFee amount fee * price < 2 ^ 256)
    (h : exactOutStep zeroForOne price target liquidity owed fee = .ok st) (hcharge : st.amountIn + st.feeAmount ≤ amount)
    (h' : exactInStep zeroForOne price target liquidity amount fee = .ok st') :
    st' = st ∨ (st.amountOut = owed ∧ owed ≤ st'.amountOut) := by
  have hlessle := lessFee_le amount fee
  obtain ⟨hon, hpast, -⟩ := exactOutStep_moves hp0 hp ht0 ht hl hside hr h
  obtain ⟨stop, rfl, hin, hf, hcase⟩ := exactOutStep_cases hp0 hp ht0 ht hl hside h
  obtain ⟨hlow, hhigh⟩ := onSide_mem hon hpast
  have hs0 : 0 < st.sqrtRatioNextX96 := by omega
  have hs : st.sqrtRatioNextX96 < 2 ^ 160 := by omega
  obtain ⟨x, hx, hcovers⟩ := inputDelta_eq hp0 hp hs0 hs hl hon
  cases hx.symm.trans hin
  have hxlt := inputDelta_lt hp0 hp hs0 hs hl hon hin
  rw [feeComplement_eq hfee] at hf
  obtain ⟨hc, -, hceil⟩ := mulDivRoundingUp_ok (by omega) (by unfold MAX_FEE at hfee; omega) (by unfold MAX_FEE; omega) hf
  have hless : st.amountIn ≤ lessFee amount fee := by
    refine le_lessFee hfee ?_ hcharge
    rw [Nat.mul_comm st.feeAmount]
    exact (ceilDiv_le_iff hc).1 hceil.ge
  have hcov := (hcovers _).1 hless
  rcases hcase with ⟨hnext, -, hout⟩ | ⟨hmore, hout, hnext⟩
  · left
    rcases exactInStep_cases hp0 hp ht0 ht hl hside hfee ha h' with
      ⟨hnext', -, hin', hout', hf'⟩ | ⟨hshort, -⟩
    · rw [hnext] at hin
      obtain ⟨next, inn, out, f⟩ := st
      obtain ⟨next', inn', out', f'⟩ := st'
      cases hin.symm.trans hin'
      cases hout.symm.trans hout'
      dsimp only at *
      rw [hnext, hnext', hceil, hf']
    · exact absurd (hnext ▸ hcov) hshort
  · right
    refine ⟨hout, ?_⟩
    have hpay := (nextFromOutput_mem hp hl hside hr hmore hnext).2.2
    rcases exactInStep_cases hp0 hp ht0 ht hl hside hfee ha h' with
      ⟨-, -, -, hout', -⟩ | ⟨hshort, hnext', hout', -⟩
    · obtain ⟨y, hy, hpays⟩ := outputDelta_eq hp0 hp ht0 ht hl hside
      cases hy.symm.trans hout'
      exact (Nat.le_succ _).trans ((hpays _).2 hmore)
    · obtain ⟨hon', hpast', -⟩ := nextFromInput_mem hp hl hside ht (by omega) hshort hnext'
      have hmem' := onSide_mem hon' hpast'
      have hfar := nextFromInput_reaches hp hl hside hon ht (by omega) hshort (fun hz => hfull hz hshort) hcov hnext'
      obtain ⟨y, hy, hpays⟩ := outputDelta_eq hp0 hp (by omega) (by omega) hl hon'
      cases hy.symm.trans hout'
      exact (hpays _).2 (hpay.further hs0 hon hfar)

end Step

namespace SwapCall

variable {c c' : SwapCall} {s s' u u' u₀ : SwapState} {stop stop' : Bool} {found found' : Int}
  {initialized initialized' : Bool} {step step' : SwapStep}

/-- Where the amount of token 0 stops the price short of its target, the update is in full precision. -/
def FullPrecision (c : SwapCall) (s : SwapState) : Prop :=
  c.zeroForOne → c.exactInput → ∀ found initialized,
    nextInitializedTick c.ticks s.tickCurrent c.zeroForOne c.tickSearch = .ok (found, initialized) →
    ¬Covers true s.sqrtPriceX96 (c.target (sqrtRatio (clampTick found))) s.liquidity
      (lessFee s.amountSpecifiedRemaining.toNat c.fee) →
    s.liquidity * 2 ^ 96 + lessFee s.amountSpecifiedRemaining.toNat c.fee * s.sqrtPriceX96 < 2 ^ 256

/-- In full precision whatever the direction that the step reads off its prices. -/
theorem FullPrecision.onward (hfull : FullPrecision c s) (hin : c.exactInput) (h : Onward c s s' stop found initialized step)
    (hdown : decide (s.sqrtPriceX96 ≥ c.target (sqrtRatio (clampTick found))) = true)
    (hshort : ¬Covers (s.sqrtPriceX96 ≥ c.target (sqrtRatio (clampTick found))) s.sqrtPriceX96
      (c.target (sqrtRatio (clampTick found))) s.liquidity (lessFee s.amountSpecifiedRemaining.toNat c.fee)) :
    s.liquidity * 2 ^ 96 + lessFee s.amountSpecifiedRemaining.toNat c.fee * s.sqrtPriceX96 < 2 ^ 256 := by
  rw [hdown] at hshort
  cases hz : c.zeroForOne with
  | true => exact hfull hz hin found initialized h.search hshort
  | false =>
    have hside := h.side
    rw [hz] at hside
    have hle : s.sqrtPriceX96 ≤ c.target (sqrtRatio (clampTick found)) := hside
    have hge := of_decide_eq_true hdown
    refine absurd ?_ hshort
    rw [Covers, if_pos rfl, Nat.sub_eq_zero_of_le hle, Nat.mul_zero]
    exact Nat.zero_le _

/-- An input of less than `2^95` keeps every product in its word. -/
theorem fullPrecision_of_lt (hg : Grounded c) (hu₀ : Steady c u₀) (hlt : u₀.amountSpecifiedRemaining < 2 ^ 95)
    (hreach : Reaches c u₀ u false) : FullPrecision c u := by
  intro _ hin found initialized _ _
  have hkept := hreach.rule (I := fun s _ => Steady c s ∧ s.amountSpecifiedRemaining ≤ u₀.amountSpecifiedRemaining)
    ⟨hu₀, le_rfl⟩ fun s s' stop ⟨hs, hle⟩ hgo hround => by
      obtain ⟨_, _, step, ho⟩ := hs.onward hg hgo hround
      have hrem := (account_remaining hs.fits.remaining hgo.1 ho.ok).1
      rw [if_pos hin, ← ho.ending.state.2.1] at hrem
      exact ⟨ho.steady hg hs hgo, by omega⟩
  obtain ⟨hs, hle⟩ := hkept
  have hless := lessFee_le u.amountSpecifiedRemaining.toNat c.fee
  have hliq := hs.fits.liquidity
  generalize lessFee u.amountSpecifiedRemaining.toNat c.fee = less at *
  have hmul : less * u.sqrtPriceX96 ≤ 2 ^ 95 * 2 ^ 160 := Nat.mul_le_mul (by omega) hs.fits.price.le
  omega

/-- A round of each of the two runs: the same step, or the exact output is complete and the exact input gives as
much. -/
theorem Onward.answers (hg : Grounded c) (hout : ¬c.exactInput) (hin : c'.exactInput) (ha : Alike c c')
    (hsearch : c.tickSearch = c'.tickSearch) (hs : Fits c s) (hu : Fits c' u) (hgo : c.goesOn s) (hb : Beside s u)
    (hfull : FullPrecision c' u) (h : Onward c s s' stop found initialized step)
    (h' : Onward c' u u' stop' found' initialized' step')
    (hcharge : (step.amountIn + step.feeAmount : Int) ≤ u.amountSpecifiedRemaining) :
    (Beside s' u' ∧ stop = stop' ∧ step' = step) ∨
      ((step.amountOut : Int) = -s.amountSpecifiedRemaining ∧ step.amountOut ≤ step'.amountOut) := by
  obtain ⟨hprice, htick, hliq⟩ := hb
  have hfound := h.search
  rw [htick, ha.ticks, ha.zeroForOne, hsearch] at hfound
  cases hfound.symm.trans h'.search
  obtain ⟨ht0, ht⟩ := hg.target_mem found
  have hneg := hs.remaining.neg hgo.1 hout
  have hlow := hs.remaining.mem.1
  have hmost := hu.remaining.mem
  have hstep := computeSwapStep_exactOut hneg h.swapStep
  have hmin := computeSwapStep_not_min hneg h.swapStep
  have hfullstep := hfull.onward hin h'
  have hstep' := h'.swapStep
  rw [computeSwapStep_exactIn (hu.remaining.nonneg hin), ← ha.target, ← ha.fee, ← hprice, ← hliq] at hstep'
  rw [← ha.target, ← ha.fee, ← hprice, ← hliq] at hfullstep
  rcases exactInStep_answers h.pos hs.price ht0 ht hs.liquidity (onSide_of_ge _ _) hg.fee (by omega) (by omega) hfullstep hstep
    (by omega) hstep' with rfl | ⟨hall, hgives⟩
  · left
    obtain ⟨hbeside, hstop⟩ := h.ending.beside ha ⟨hprice, htick, hliq⟩ h'.ending
    exact ⟨hbeside, hstop, rfl⟩
  · exact .inr ⟨by omega, by omega⟩

/-- **The input that an output was charged gives at least the output.** -/
theorem loop_answers (hg : Grounded c) (hg' : Grounded c') (hout : ¬c.exactInput) (hin : c'.exactInput) (ha : Alike c c')
    (hsearch : c.tickSearch = c'.tickSearch) {bound : Nat} (hbound : bound < 2 ^ 255) (hp : u₀.sqrtPriceX96 < 2 ^ 160)
    (hfull : ∀ u, Reaches c' u₀ u false → c'.goesOn u → FullPrecision c' u) {fuel fuel' n m k : Nat} {sf uf : SwapState}
    (hs : Steady c s) (hu : Steady c' u) (hc : Consistent c s) (hreach : Reaches c' u₀ u false) (hb : Beside s u)
    (hn : Charged c bound s n) (hm : Charged c bound sf m) (hspend : u.amountSpecifiedRemaining = m - n)
    (hk : Paid c' u₀ u k) (h : c.loop fuel s = .ok sf) (hdone : sf.amountSpecifiedRemaining = 0)
    (h' : c'.loop fuel' u = .ok uf) :
    ∃ k', Paid c' u₀ uf k' ∧ (k : Int) - s.amountSpecifiedRemaining ≤ k' := by
  induction fuel generalizing fuel' s u n k with
  | zero => cases h
  | succ fuel ih =>
    obtain ⟨m', hle, hm', hsame⟩ := loop_charged hg hout hbound hs hc hn h
    have hmm : m' = m := by exact_mod_cast hm'.calculated.symm.trans hm.calculated
    subst hmm
    by_cases hgo : c.goesOn s
    swap
    · -- nothing is owed
      obtain ⟨k', hkk, hpaid⟩ := loop_paid hg' hin hp hu hk h'
      rw [loop_ended hgo h] at hdone
      exact ⟨k', hpaid, by omega⟩
    have hgo' : c'.goesOn u := by
      refine ⟨fun h0 => hgo.1 ?_, ?_⟩
      · rw [← hsame (by omega), hdone]
      · rw [← ha.limit, ← hb.price]
        exact hgo.2
    obtain ⟨_, s₁, stop, hfuel, hround, hrest⟩ := loop_goes hgo h
    obtain ⟨fuel₁, u₁, stop', -, hround', hrest'⟩ := loop_goes hgo' h'
    cases Nat.succ.inj hfuel
    obtain ⟨found, initialized, step, ho⟩ := hs.onward hg hgo hround
    obtain ⟨found', initialized', step', ho'⟩ := hu.onward hg' hgo' hround'
    have hn₁ := ho.charged hg hout hbound hs hc hgo hround hn
    have hk₁ := ho'.paid hg' hin hp hu.fits hk
    have hs₁ := ho.steady hg hs hgo
    have hc₁ := (ho.advances hg hc).consistent
    have hle₁ : n + (step.amountIn + step.feeAmount) ≤ m' := by
      have hsf := hm'.calculated
      split at hrest
      · rw [hrest, hn₁.calculated] at hsf
        omega
      · obtain ⟨m₁, hle₁, hm₁, -⟩ := loop_charged hg hout hbound hs₁ hc₁ hn₁ hrest
        rw [hm₁.calculated] at hsf
        omega
    have hrem := (account_remaining hs.fits.remaining hgo.1 ho.ok).1
    have hrem' := (account_remaining hu.fits.remaining hgo'.1 ho'.ok).1
    rw [if_neg hout, ← ho.ending.state.2.1] at hrem
    rw [if_pos hin, ← ho'.ending.state.2.1] at hrem'
    rcases ho.answers hg hout hin ha hsearch hs.fits hu.fits hgo hb (hfull u hreach hgo') ho' (by omega) with
      ⟨hb₁, rfl, rfl⟩ | ⟨hall, hgives⟩
    · cases stop with
      | true =>
        simp only [if_true] at hrest hrest'
        refine ⟨_, hrest' ▸ hk₁, ?_⟩
        rw [hrest] at hdone
        omega
      | false =>
        simp only [Bool.false_eq_true, if_false] at hrest hrest'
        obtain ⟨k', hpaid, hkk⟩ := ih hs₁ (ho'.steady hg' hu hgo') hc₁ (hreach.round hgo' hround') hb₁ hn₁ (by omega) hk₁
          hrest hrest'
        exact ⟨k', hpaid, by omega⟩
    · obtain ⟨k', hkk, hpaid⟩ := loop_paid_round hg' hin hp hu hgo' ho' hk hrest'
      exact ⟨k', hpaid, by omega⟩

end SwapCall

/-! ## Quotes -/

namespace UniswapV3Pool

variable {p : UniswapV3Pool} {zeroForOne : Bool} {amount : Nat}

/-- Every update of the token 0 price in the run behind an exact-input quote is in full precision. -/
def FullPrecision (p : UniswapV3Pool) (zeroForOne : Bool) (amount : Nat) : Prop :=
  ∀ s, (p.swapCall zeroForOne amount true).Reaches (p.swapStart amount true) s false →
    (p.swapCall zeroForOne amount true).goesOn s → (p.swapCall zeroForOne amount true).FullPrecision s

/-- The run behind a quote, from a well-formed state. -/
theorem calculateSwap_steady (hwf : p.WellFormed) (hfee : p.fee < MAX_FEE) (ha : amount < 2 ^ 255) {isExactInput : Bool}
    {fuel out : Nat} (h : p.calculateSwap fuel zeroForOne amount isExactInput = .ok out) :
    (p.swapCall zeroForOne amount isExactInput).Grounded ∧
      (p.swapCall zeroForOne amount isExactInput).Steady (p.swapStart amount isExactInput) ∧
      ∃ s, (p.swapCall zeroForOne amount isExactInput).loop fuel (p.swapStart amount isExactInput) = .ok s ∧
        s.amountSpecifiedRemaining = 0 ∧ out = s.amountCalculated.natAbs := by
  unfold calculateSwap at h
  obtain ⟨s, hswap, h⟩ := bind_eq_ok.1 h
  obtain ⟨c, rfl, hcheck, hloop⟩ := SwapCall.v3Swap_ok hswap
  have hspec := amountSpecified_of_lt isExactInput ha
  obtain ⟨hg, hs⟩ := SwapCall.steady_start hwf p.tickSearch_or hfee (by rw [hspec]; split <;> omega) hcheck
  refine ⟨hg, hs, s, hloop, ?_⟩
  split at h
  · cases h
  rename_i hrem
  split at h
  · cases h
  · exact ⟨not_not.1 hrem, (Except.ok.inj h).symm⟩

/-- A quote of less than `2^95` is in full precision. -/
theorem fullPrecision_of_lt (hwf : p.WellFormed) (hfee : p.fee < MAX_FEE) (ha : amount < 2 ^ 95) {fuel out : Nat}
    (h : p.calculateSwap fuel zeroForOne amount true = .ok out) : p.FullPrecision zeroForOne amount := by
  obtain ⟨hg, hs, -⟩ := calculateSwap_steady hwf hfee (by omega) h
  have hstart : (p.swapStart amount true).amountSpecifiedRemaining = amount := amountSpecified_of_lt true (by omega)
  exact fun s hreach _ => SwapCall.fullPrecision_of_lt hg hs (by omega) hreach

theorem swapCall_mode (p : UniswapV3Pool) (zeroForOne isExactInput : Bool) (ha : amount < 2 ^ 255) (h0 : 0 < amount) :
    (p.swapCall zeroForOne amount isExactInput).exactInput = isExactInput := by
  change decide (amountSpecified amount isExactInput ≥ 0) = isExactInput
  rw [amountSpecified_of_lt isExactInput ha]
  cases isExactInput
  · exact decide_eq_false (by rw [if_neg Bool.false_ne_true]; omega)
  · exact decide_eq_true (by rw [if_pos rfl]; omega)

/-- The direction of the one token in and of the other out. -/
theorem directions_eq {tokenIn tokenOut : Address} {fuel x y z fuel' : Nat} (hne : tokenIn ≠ tokenOut)
    (hy : p.calculateExactOutput fuel tokenOut x = .ok y) (hz : p.calculateExactInput fuel' tokenIn y = .ok z) :
    decide (tokenOut ≠ p.token0) = decide (tokenIn = p.token0) := by
  by_cases hout : tokenOut = p.token0
  · rw [decide_eq_false (not_not.2 hout), decide_eq_false (hout ▸ hne)]
  · rw [decide_eq_true hout]
    refine (decide_eq_true ?_).symm
    unfold calculateExactOutput at hy
    unfold calculateExactInput at hz
    by_contra hin
    by_cases hfee : p.feeUnpredictable
    · rw [if_pos hfee] at hy
      cases hy
    rw [if_neg hfee, if_neg hout] at hy
    rw [if_neg hfee, if_neg hin] at hz
    split at hy
    · rw [if_neg (fun h => hne (h.trans (Eq.symm ‹_›)))] at hz
      cases hz
    · cases hy

end UniswapV3Pool

/-- **An exact output, quoted, and the quote spent on it, buys at least the output**, in full precision. -/
theorem requote_covers (p : UniswapV3Pool) (hwf : p.WellFormed) (hfee : p.fee < MAX_FEE) {tokenIn tokenOut : Address}
    (hne : tokenIn ≠ tokenOut) {x y z fuel fuel' : Nat} (hx : x < 2 ^ 255)
    (hy : p.calculateExactOutput fuel tokenOut x = .ok y) (hfull : p.FullPrecision (tokenIn = p.token0) y)
    (hz : p.calculateExactInput fuel' tokenIn y = .ok z) : x ≤ z := by
  rcases Nat.eq_zero_or_pos x with rfl | hx0
  · exact Nat.zero_le z
  have hdir := UniswapV3Pool.directions_eq hne hy hz
  have hy := UniswapV3Pool.calculateExactOutput_ok hy
  have hz := UniswapV3Pool.calculateExactInput_ok hz
  rw [hdir] at hy
  generalize decide (tokenIn = p.token0) = zeroForOne at *
  obtain ⟨hg, hs, sf, hloop, hdone, rfl⟩ := UniswapV3Pool.calculateSwap_steady hwf hfee hx hy
  have hout : ¬(p.swapCall zeroForOne x false).exactInput := by
    rw [UniswapV3Pool.swapCall_mode p zeroForOne false hx hx0]
    exact Bool.false_ne_true
  have hc : (p.swapCall zeroForOne x false).Consistent (p.swapStart x false) := by
    obtain ⟨hmem, hlow, hhigh⟩ := hwf.floor
    exact ⟨hmem, hlow, fun hmax => (hhigh hmax).le, hwf.liquidity_eq⟩
  have hstart : (p.swapCall zeroForOne x false).Charged (2 ^ 238) (p.swapStart x false) 0 := SwapCall.charged_start hc.mem
  obtain ⟨m, -, hm, -⟩ := SwapCall.loop_charged hg hout (by decide) hs hc hstart hloop
  have hm238 := hm.within
  have hquote : sf.amountCalculated.natAbs = m := by rw [hm.calculated, Int.natAbs_natCast]
  rw [hquote] at hz hfull
  obtain ⟨hg', hs', uf, hloop', -, rfl⟩ := UniswapV3Pool.calculateSwap_steady hwf hfee (by omega) hz
  have hin : (p.swapCall zeroForOne m true).exactInput := by
    change decide (UniswapV3Pool.amountSpecified m true ≥ 0) = true
    rw [UniswapV3Pool.amountSpecified_of_lt true (by omega)]
    exact decide_eq_true (Int.natCast_nonneg m)
  have hspend : (p.swapStart m true).amountSpecifiedRemaining = (m : Int) - (0 : Nat) := by
    change UniswapV3Pool.amountSpecified m true = _
    rw [UniswapV3Pool.amountSpecified_of_lt true (by omega), if_pos rfl, Nat.cast_zero, sub_zero]
  obtain ⟨k, hk, hle⟩ := SwapCall.loop_answers hg hg' hout hin ⟨rfl, rfl, rfl, rfl⟩ rfl (by decide) hwf.price_lt hfull hs hs' hc
    .start ⟨rfl, rfl, rfl⟩ hstart hm hspend ⟨rfl, (Nat.zero_add _).le⟩ hloop hdone hloop'
  have howed : (p.swapStart x false).amountSpecifiedRemaining = -x := UniswapV3Pool.amountSpecified_of_lt false hx
  rw [howed] at hle
  rw [hk.calculated]
  omega

/-- What a thousand of token 0 would buy, asked for and paid. -/
theorem requote_covers_thousand :
    rangePool.calculateExactOutput 100 3 996 = .ok 1000 ∧ rangePool.calculateExactInput 100 2 1000 = .ok 996 ∧ 996 ≤ 996 := by
  have hy : rangePool.calculateExactOutput 100 3 996 = .ok 1000 := by decide +kernel
  have hz : rangePool.calculateExactInput 100 2 1000 = .ok 996 := by decide +kernel
  have hfull : rangePool.FullPrecision true 1000 :=
    UniswapV3Pool.fullPrecision_of_lt rangePool_wellFormed (by decide) (by decide)
      (UniswapV3Pool.calculateExactInput_ok hz)
  exact ⟨hy, hz, requote_covers rangePool rangePool_wellFormed (by decide) (show (2 : Address) ≠ 3 by decide) (by decide) hy
    hfull hz⟩

/-- A pool of one wide position without a fee, its price far above the lower end. -/
def widePool : UniswapV3Pool :=
  { flatPool with
    fee := 0, tickSpacing := 3000, sqrtPriceX96 := 2 ^ 150 + 1, tick := 748636, liquidity := 2 ^ 110,
    ticks := ((∅ : TickMap).insert 0 ⟨0, 2 ^ 110, 2 ^ 110⟩).insert 768000 ⟨768000, -2 ^ 110, 2 ^ 110⟩ }

theorem widePool_wellFormed : widePool.WellFormed := by
  have hkeys : ∀ (k : Int) v, widePool.ticks[k]? = some v → k = 768000 ∨ k = 0 := fun k v hk => by
    unfold widePool at hk
    rw [Ranges.lookup_insert, Ranges.lookup_insert] at hk
    split at hk
    · exact .inl ‹_›
    split at hk
    · exact .inr ‹_›
    · simp at hk
  have hbounds : MIN_TICK ≤ 0 ∧ (768000 : Int) ≤ MAX_TICK := by decide
  refine ⟨by decide, by decide, ⟨by decide, by decide +kernel, fun _ => by decide +kernel⟩, ⟨fun k v hk => ?_, by decide +kernel⟩,
    by decide +kernel⟩
  change (MIN_TICK ≤ k ∧ k ≤ MAX_TICK) ∧ (3000 : Int) ∣ k
  rcases hkeys k v hk with rfl | rfl <;> omega

/-- Past the word of the product, what the output was quoted at buys 16384 less of it. -/
theorem requote_covers_fails :
    widePool.WellFormed ∧ widePool.fee < MAX_FEE ∧ ∃ x y z, x < 2 ^ 255 ∧ widePool.calculateExactOutput 10 3 x = .ok y ∧
      widePool.calculateExactInput 10 2 y = .ok z ∧ z + 16384 = x :=
  ⟨widePool_wellFormed, by decide, (2 ^ 150 + 1 - 3 * 2 ^ 97) * 2 ^ 14, 216345702438951079131176642456235,
    23384026197294438902813669521219085518750426857472, by decide, by decide +kernel, by decide +kernel, by decide⟩

end EvmDexPool.V3

import EvmDexPool.V3.Nets
import EvmDexPool.V3.Quote

/-!
# More in, more out

Two exact-input runs from one well-formed state, one with more to spend, take the same rounds until the
poorer one is spent (`spends`): a target that its amount reaches the other reaches at the same cost. In
the round where it stops short the richer one goes at least as far, also where the amounts take
different branches of `get_next_sqrt_price_from_amount_0_rounding_up`, and from there on it can only be
paid more.
-/

namespace EvmDexPool.V3

open Fixed

/-! ## What is paid along the way -/

section Pays
variable {zeroForOne : Bool} {price stop stop' liquidity amount : Nat}

/-- The most that is left to pay from a price on. -/
def outputRoom (zeroForOne : Bool) (price : Nat) : Nat := if zeroForOne then 2 ^ 32 * price else 2 ^ 224 / price

theorem outputRoom_lt (hp : price < 2 ^ 160) : outputRoom zeroForOne price < 2 ^ 225 := by
  unfold outputRoom
  split
  · omega
  · exact (Nat.div_le_self _ _).trans_lt (by norm_num)

/-- What a move pays comes out of the room. -/
theorem Pays.room (hl : liquidity < 2 ^ 128) (hp0 : 0 < price) (hs0 : 0 < stop) (hside : OnSide zeroForOne price stop)
    (h : Pays zeroForOne price stop liquidity amount) :
    amount + outputRoom zeroForOne stop ≤ outputRoom zeroForOne price := by
  cases zeroForOne with
  | true =>
    have hside : stop ≤ price := hside
    rw [Pays, if_pos rfl] at h
    have hmost := h.trans (Nat.mul_le_mul_right (price - stop) hl.le)
    simp only [outputRoom, if_true]
    omega
  | false =>
    have hside : price ≤ stop := hside
    rw [Pays, if_neg (by decide), Nat.mul_sub] at h
    have hN : liquidity * 2 ^ 96 ≤ 2 ^ 224 := by omega
    simp only [outputRoom, Bool.false_eq_true, if_false]
    rw [Nat.le_div_iff_mul_le hp0]
    have hfloor := Nat.div_mul_le_self (2 ^ 224) stop
    generalize liquidity * 2 ^ 96 = N at *
    generalize 2 ^ 224 / stop = y at *
    refine Nat.le_of_mul_le_mul_right ?_ hs0
    have hroom : N * stop - N * price ≤ 2 ^ 224 * stop - 2 ^ 224 * price := by
      rw [← Nat.mul_sub, ← Nat.mul_sub]
      exact Nat.mul_le_mul_right _ hN
    have hprice : 2 ^ 224 * price ≤ 2 ^ 224 * stop := Nat.mul_le_mul_left _ hside
    calc (amount + y) * price * stop = amount * (price * stop) + y * stop * price := by ring
      _ ≤ (2 ^ 224 * stop - 2 ^ 224 * price) + 2 ^ 224 * price :=
        Nat.add_le_add (h.trans hroom) (Nat.mul_le_mul_right _ hfloor)
      _ = 2 ^ 224 * stop := Nat.sub_add_cancel hprice

end Pays

/-! ## One step, of two amounts -/

section Step
variable {zeroForOne : Bool} {price target liquidity amount amount' fee : Nat} {st st' : SwapStep}
  (hp0 : 0 < price) (hp : price < 2 ^ 160) (ht0 : 0 < target) (ht : target < 2 ^ 160) (hl : liquidity < 2 ^ 128)
  (hside : OnSide zeroForOne price target) (hfee : fee < MAX_FEE)

theorem lessFee_mono (h : amount ≤ amount') (fee : Nat) : lessFee amount fee ≤ lessFee amount' fee :=
  Nat.div_le_div_right (Nat.mul_le_mul_right _ h)

include hp hl hside ht in
/-- Short of the target, more of the input moves the price at least as far. -/
theorem nextFromInput_mono {next next' : Nat} (hle : amount ≤ amount') (ha : amount' < 2 ^ 255)
    (hshort : ¬Covers zeroForOne price target liquidity amount')
    (h : getNextSqrtPriceFromInput price liquidity amount zeroForOne = .ok next)
    (h' : getNextSqrtPriceFromInput price liquidity amount' zeroForOne = .ok next') : OnSide zeroForOne next next' := by
  cases zeroForOne with
  | true => exact getNextSqrtPriceFromInput_down_anti hl hp hle ha h h'
  | false =>
    have hpt : price ≤ target := hside
    rw [Covers, if_neg (by decide)] at hshort
    have hmul := Nat.mul_le_mul_right (2 ^ 96) hle
    have hreach' := (Nat.lt_of_not_le hshort).le
    have hword : amount' < 2 ^ 256 := ha.trans (by decide)
    change next ≤ next'
    rw [getNextSqrtPriceFromInput_up_eq hl (hle.trans_lt hword) ht hpt (hmul.trans hreach') h,
      getNextSqrtPriceFromInput_up_eq hl hword ht hpt hreach' h']
    exact Nat.add_le_add_left (Nat.div_le_div_right hmul) _

include hp0 hp ht0 ht hl hside hfee

/-- A step of the lesser amount is the step of the greater, or it is short and pays no more. -/
theorem exactInStep_mono (hle : amount ≤ amount') (ha : amount' < 2 ^ 255)
    (h : exactInStep zeroForOne price target liquidity amount fee = .ok st)
    (h' : exactInStep zeroForOne price target liquidity amount' fee = .ok st') :
    st' = st ∨ (st.amountIn + st.feeAmount = amount ∧ st.amountOut ≤ st'.amountOut) := by
  obtain ⟨x, hx, hcovers⟩ := inputDelta_eq hp0 hp ht0 ht hl hside
  have hless := lessFee_mono hle fee
  have hless' := lessFee_le amount' fee
  rcases exactInStep_cases hp0 hp ht0 ht hl hside hfee (by omega) h with
    ⟨hnext, hreach, hin, hout, hf⟩ | ⟨hshort, hnext, hout, hin, hf⟩ <;>
    rcases exactInStep_cases hp0 hp ht0 ht hl hside hfee ha h' with
      ⟨hnext', hreach', hin', hout', hf'⟩ | ⟨hshort', hnext', hout', hin', hf'⟩
  · left
    obtain ⟨next, inn, out, f⟩ := st
    obtain ⟨next', inn', out', f'⟩ := st'
    cases hin.symm.trans hin'
    cases hout.symm.trans hout'
    dsimp only at *
    subst hnext hnext' hf hf'
    rfl
  · cases hx.symm.trans hin
    exact absurd ((hcovers _).1 (hreach.trans hless)) hshort'
  · right
    have hshort'' : 0 < st.sqrtRatioNextX96 ∧ st.sqrtRatioNextX96 < 2 ^ 160 ∧ OnSide zeroForOne price st.sqrtRatioNextX96 ∧
        OnSide zeroForOne st.sqrtRatioNextX96 target := by
      obtain ⟨hon, hpast, -⟩ := nextFromInput_mem hp hl hside ht (by omega) hshort hnext
      have := onSide_mem hon hpast
      exact ⟨by omega, by omega, hon, hpast⟩
    obtain ⟨hs0, hs, hon, hpast⟩ := hshort''
    obtain ⟨y, hy, hpays⟩ := outputDelta_eq hp0 hp hs0 hs hl hon
    obtain ⟨z, hz, hpays'⟩ := outputDelta_eq hp0 hp ht0 ht hl hside
    cases hy.symm.trans hout
    cases hz.symm.trans hout'
    refine ⟨by have := lessFee_le amount fee; omega, ?_⟩
    exact (hpays' _).2 (((hpays _).1 le_rfl).further hs0 hon hpast)
  · right
    obtain ⟨hon, hpast, -⟩ := nextFromInput_mem hp hl hside ht (by omega) hshort hnext
    obtain ⟨hon', hpast', -⟩ := nextFromInput_mem hp hl hside ht (by omega) hshort' hnext'
    have hmem := onSide_mem hon hpast
    have hmem' := onSide_mem hon' hpast'
    have hfar := nextFromInput_mono hp ht hl hside hless (by omega) hshort' hnext hnext'
    obtain ⟨y, hy, hpays⟩ := outputDelta_eq hp0 hp (by omega) (by omega) hl hon
    obtain ⟨z, hz, hpays'⟩ := outputDelta_eq hp0 hp (by omega) (by omega) hl hon'
    cases hy.symm.trans hout
    cases hz.symm.trans hout'
    refine ⟨by have := lessFee_le amount fee; omega, ?_⟩
    exact (hpays' _).2 (((hpays _).1 le_rfl).further (by omega) hon hfar)

end Step

namespace SwapCall

variable {c c' : SwapCall} {s s' s₀ u u' : SwapState} {stop stop' : Bool} {found : Int} {initialized : Bool}
  {step step' : SwapStep}

/-- What an exact-input run has paid so far, out of the room it had. -/
structure Paid (c : SwapCall) (s₀ s : SwapState) (n : Nat) : Prop where
  calculated : s.amountCalculated = -n
  room : n + outputRoom c.zeroForOne s.sqrtPriceX96 ≤ outputRoom c.zeroForOne s₀.sqrtPriceX96

theorem Onward.room (hg : Grounded c) (hs : Fits c s) (h : Onward c s s' stop found initialized step) :
    step.amountOut + outputRoom c.zeroForOne step.sqrtRatioNextX96 ≤ outputRoom c.zeroForOne s.sqrtPriceX96 := by
  have hmem := onSide_mem h.ok.onSide h.ok.notPast
  have htarget := (hg.target_mem found).1
  have hpos := h.pos
  exact h.ok.pays.room hs.liquidity h.pos (by omega) h.ok.onSide

/-- A round adds its step's output to what is paid. -/
theorem Onward.paid (hg : Grounded c) (hin : c.exactInput) (hp : s₀.sqrtPriceX96 < 2 ^ 160) (hs : Fits c s)
    (h : Onward c s s' stop found initialized step) {n : Nat} (hn : Paid c s₀ s n) :
    Paid c s₀ s' (n + step.amountOut) := by
  obtain ⟨hprice, -, hcalc⟩ := h.ending.state
  have hroom := h.room hg hs
  have hmost := hn.room
  have hlt : outputRoom c.zeroForOne s₀.sqrtPriceX96 < 2 ^ 225 := outputRoom_lt hp
  refine ⟨?_, by rw [hprice]; omega⟩
  rw [hcalc, account, if_pos hin]
  refine fromRaw_of_modEq wsub_lt (by push_cast; omega) ?_
  refine (wsub_modEq (by omega)).trans ?_
  rw [hn.calculated]
  push_cast
  rw [neg_add']
  exact (intoRaw_modEq _).sub_right _

/-- From where it is, a run is only paid more. -/
theorem loop_paid (hg : Grounded c) (hin : c.exactInput) (hp : s₀.sqrtPriceX96 < 2 ^ 160) {fuel n : Nat}
    (hs : Steady c s) (hn : Paid c s₀ s n) (h : c.loop fuel s = .ok s') : ∃ m, n ≤ m ∧ Paid c s₀ s' m := by
  obtain ⟨-, ⟨-, hm⟩, -⟩ := loop_ok (I := fun s _ => Steady c s ∧ ∃ m, n ≤ m ∧ Paid c s₀ s m) h ⟨hs, n, le_rfl, hn⟩
    fun s s' stop ⟨hs, m, hle, hm⟩ hgo hround => by
      obtain ⟨_, _, step, ho⟩ := hs.onward hg hgo hround
      exact ⟨ho.steady hg hs hgo, m + step.amountOut, by omega, ho.paid hg hin hp hs.fits hm⟩
  exact hm

theorem computeSwapStep_exactIn {price target liquidity fee : Nat} {remaining : Int} (h : 0 ≤ remaining) :
    computeSwapStep price target liquidity remaining fee =
      exactInStep (price ≥ target) price target liquidity remaining.toNat fee := if_pos h

/-- Two states that differ in their amounts only. -/
structure Beside (s u : SwapState) : Prop where
  price : s.sqrtPriceX96 = u.sqrtPriceX96
  tick : s.tickCurrent = u.tickCurrent
  liquidity : s.liquidity = u.liquidity

/-- Two calls over the same ticks to the same limit, at one fee. -/
structure Alike (c c' : SwapCall) : Prop where
  fee : c.fee = c'.fee
  ticks : c.ticks = c'.ticks
  zeroForOne : c.zeroForOne = c'.zeroForOne
  limit : c.sqrtPriceLimitX96 = c'.sqrtPriceLimitX96

theorem Alike.refl (c : SwapCall) : Alike c c := ⟨rfl, rfl, rfl, rfl⟩

theorem Alike.crossTick (h : Alike c c') (liquidity : Nat) (tick : Int) : c.crossTick liquidity tick = c'.crossTick liquidity tick := by
  unfold SwapCall.crossTick
  rw [h.ticks, h.zeroForOne]

theorem Alike.target (h : Alike c c') (x : Nat) : c.target x = c'.target x := by
  unfold SwapCall.target
  rw [h.zeroForOne, h.limit]

/-- Two steps onto one tick's price from the same liquidity end beside each other. -/
theorem Ending.meets {tickNext : Int} (ha : Alike c c') (hliq : s.liquidity = u.liquidity)
    (hp : step.sqrtRatioNextX96 = sqrtRatio tickNext) (hp' : step'.sqrtRatioNextX96 = sqrtRatio tickNext)
    (h : Ending c s tickNext initialized step s' stop) (h' : Ending c' u tickNext initialized step' u' stop') :
    Beside s' u' ∧ stop = stop' := by
  cases h with
  | moved _ hne _ _ => exact absurd hp hne
  | stayed hne _ => exact absurd hp hne
  | crossed l _ hl =>
  cases h' with
  | moved _ hne _ _ => exact absurd hp' hne
  | stayed hne _ => exact absurd hp' hne
  | crossed l' _ hl' =>
  have hsame : l = l' := by
    cases initialized with
    | true =>
      simp only [if_true] at hl hl'
      rw [hliq, ha.crossTick] at hl
      exact Except.ok.inj (hl.symm.trans hl')
    | false =>
      simp only [Bool.false_eq_true, if_false] at hl hl'
      rw [hl, hl', hliq]
  subst hsame
  exact ⟨⟨by simp only [account_price, hp, hp'], by simp only [ha.zeroForOne], rfl⟩, rfl⟩

/-- The same step of two states beside each other ends the same way. -/
theorem Ending.beside {tickNext : Int} (ha : Alike c c') (hb : Beside s u) (h : Ending c s tickNext initialized step s' stop)
    (h' : Ending c' u tickNext initialized step u' stop') : Beside s' u' ∧ stop = stop' := by
  obtain ⟨hprice, htick, hliq⟩ := hb
  cases h with
  | crossed l hp hl => exact Ending.meets ha hliq hp hp (.crossed l hp hl) h'
  | moved tick hne hmove ht =>
    cases h' with
    | crossed l' hp' _ => exact absurd hp' hne
    | moved tick' _ _ ht' =>
      cases Except.ok.inj (ht.symm.trans ht')
      exact ⟨⟨by simp only [account_price], rfl, by simp only [account_liquidity, hliq]⟩, rfl⟩
    | stayed _ hstay => exact absurd (hstay.trans hprice.symm) hmove
  | stayed hne hstay =>
    cases h' with
    | crossed l' hp' _ => exact absurd hp' hne
    | moved tick' _ hmove _ => exact absurd (hstay.trans hprice) hmove
    | stayed _ _ =>
      exact ⟨⟨by simp only [account_price], by simp only [account_tick, htick], by simp only [account_liquidity, hliq]⟩, rfl⟩

/-- A state that does not go on is where the loop ends. -/
theorem loop_ended {fuel : Nat} (hend : ¬c.goesOn s) (h : c.loop fuel s = .ok s') : s' = s := by
  cases fuel with
  | zero => cases h
  | succ fuel =>
    rw [loop, if_neg hend] at h
    exact (Except.ok.inj h).symm

/-- A state that goes on takes a round. -/
theorem loop_goes {fuel : Nat} (hgo : c.goesOn s) (h : c.loop fuel s = .ok s') :
    ∃ fuel' s₁ stop, fuel = fuel' + 1 ∧ c.round s = .ok (s₁, stop) ∧ if stop then s' = s₁ else c.loop fuel' s₁ = .ok s' := by
  cases fuel with
  | zero => cases h
  | succ fuel =>
    rw [loop, if_pos hgo] at h
    split at h
    · rename_i s₁ stop hround
      refine ⟨fuel, s₁, stop, rfl, hround, ?_⟩
      split at h
      · rw [if_pos ‹_›]
        exact (Except.ok.inj h).symm
      · rw [if_neg ‹_›]
        exact h
    · cases h

/-- Past a round that it takes, a run is only paid more. -/
theorem loop_paid_round (hg : Grounded c) (hin : c.exactInput) (hp : s₀.sqrtPriceX96 < 2 ^ 160) {fuel n : Nat} {sf : SwapState}
    (hs : Steady c s) (hgo : c.goesOn s) (h : Onward c s s' stop found initialized step) (hn : Paid c s₀ s n)
    (hrest : if stop then sf = s' else c.loop fuel s' = .ok sf) : ∃ m, n + step.amountOut ≤ m ∧ Paid c s₀ sf m := by
  have hn' := h.paid hg hin hp hs.fits hn
  split at hrest
  · exact ⟨_, le_rfl, hrest ▸ hn'⟩
  · exact loop_paid hg hin hp (h.steady hg hs hgo) hn' hrest

/-! ## Two runs -/

/-- The rounds of two runs beside each other: the same round, or the poorer one is spent. -/
theorem Onward.beside (hg : Grounded c) (hin : c.exactInput) (hs : Fits c s) (hu : Fits c u) (hgo : c.goesOn s)
    (hgo' : c.goesOn u) (hb : Beside s u) (hle : s.amountSpecifiedRemaining ≤ u.amountSpecifiedRemaining)
    {found' : Int} {initialized' : Bool}
    (h : Onward c s s' stop found initialized step) (h' : Onward c u u' stop' found' initialized' step') :
    (Beside s' u' ∧ stop = stop' ∧ step = step' ∧ s'.amountSpecifiedRemaining ≤ u'.amountSpecifiedRemaining) ∨
      (¬c.goesOn s' ∧ step.amountOut ≤ step'.amountOut) := by
  obtain ⟨hprice, htick, hliq⟩ := hb
  have hsearch := h.search
  rw [htick] at hsearch
  cases hsearch.symm.trans h'.search
  obtain ⟨ht0, ht⟩ := hg.target_mem found
  have hr := hs.remaining.nonneg hin
  have hru := hu.remaining.nonneg hin
  have hmost := hu.remaining.mem
  have hstep := h.swapStep
  have hstep' := h'.swapStep
  rw [computeSwapStep_exactIn hr, hprice, hliq] at hstep
  rw [computeSwapStep_exactIn hru] at hstep'
  have hrem := (account_remaining hs.remaining hgo.1 h.ok).1
  have hrem' := (account_remaining hu.remaining hgo'.1 h'.ok).1
  rw [if_pos hin] at hrem hrem'
  rcases exactInStep_mono h'.pos hu.price ht0 ht hu.liquidity (onSide_of_ge _ _) hg.fee (by omega) (by omega) hstep hstep'
    with rfl | ⟨hspent, hout⟩
  · left
    obtain ⟨hbeside, hstop⟩ := h.ending.beside (.refl c) ⟨hprice, htick, hliq⟩ h'.ending
    refine ⟨hbeside, hstop, rfl, ?_⟩
    rw [h.ending.state.2.1, h'.ending.state.2.1, hrem, hrem']
    omega
  · refine .inr ⟨fun hgo => hgo.1 ?_, hout⟩
    rw [h.ending.state.2.1, hrem]
    omega

/-- **The richer of two runs is paid at least as much.** -/
theorem loop_beside (hg : Grounded c) (hin : c.exactInput) (hp : s₀.sqrtPriceX96 < 2 ^ 160) {fuel fuel' n : Nat}
    {sf uf : SwapState} (hs : Steady c s) (hu : Steady c u) (hb : Beside s u)
    (hle : s.amountSpecifiedRemaining ≤ u.amountSpecifiedRemaining) (hn : Paid c s₀ s n) (hn' : Paid c s₀ u n)
    (h : c.loop fuel s = .ok sf) (h' : c.loop fuel' u = .ok uf) :
    ∃ m m', m ≤ m' ∧ Paid c s₀ sf m ∧ Paid c s₀ uf m' := by
  induction fuel generalizing fuel' s u n with
  | zero => cases h
  | succ fuel ih =>
    by_cases hgo : c.goesOn s
    swap
    · -- the poorer run is over
      obtain ⟨m, hm, hpaid⟩ := loop_paid hg hin hp hu hn' h'
      exact ⟨n, m, hm, loop_ended hgo h ▸ hn, hpaid⟩
    have hr := hs.fits.remaining.nonneg hin
    have hgo' : c.goesOn u := ⟨by have := hgo.1; omega, hb.price ▸ hgo.2⟩
    obtain ⟨_, s₁, stop, hfuel, hround, hrest⟩ := loop_goes hgo h
    obtain ⟨fuel₁, u₁, stop', -, hround', hrest'⟩ := loop_goes hgo' h'
    cases Nat.succ.inj hfuel
    obtain ⟨found, initialized, step, ho⟩ := hs.onward hg hgo hround
    obtain ⟨found', initialized', step', ho'⟩ := hu.onward hg hgo' hround'
    have hpaid := ho.paid hg hin hp hs.fits hn
    have hpaid' := ho'.paid hg hin hp hu.fits hn'
    rcases ho.beside hg hin hs.fits hu.fits hgo hgo' hb hle ho' with ⟨hb', rfl, rfl, hle'⟩ | ⟨hover, hout⟩
    · cases stop with
      | true =>
        simp only [if_true] at hrest hrest'
        exact ⟨_, _, le_rfl, hrest ▸ hpaid, hrest' ▸ hpaid'⟩
      | false =>
        simp only [Bool.false_eq_true, if_false] at hrest hrest'
        exact ih (ho.steady hg hs hgo) (ho'.steady hg hu hgo') hb' hle' hpaid hpaid' hrest hrest'
    · have hsf : sf = s₁ := by
        split at hrest
        · exact hrest
        · exact loop_ended hover hrest
      obtain ⟨m, hm, hmpaid⟩ := loop_paid_round hg hin hp hu hgo' ho' hn' hrest'
      exact ⟨_, m, by omega, hsf ▸ hpaid, hmpaid⟩

end SwapCall

/-! ## Quotes -/

namespace UniswapV3Pool

/-- The pool's state is well formed, its ticks on the pool's own spacing. -/
def WellFormed (p : UniswapV3Pool) : Prop :=
  V3.WellFormed p.sqrtPriceX96 p.tick p.liquidity p.ticks p.tickSpacing

theorem tickSearch_or (p : UniswapV3Pool) :
    p.tickSearch = .wordBounded p.tickSpacing ∨ p.tickSearch = .nextInitialized := by
  unfold tickSearch
  split
  · exact .inr rfl
  · exact .inl rfl

variable {p : UniswapV3Pool} {zeroForOne : Bool} {amount : Nat}

/-- The run behind an exact-input quote, from a well-formed state. -/
theorem calculateSwap_run (hwf : p.WellFormed) (hfee : p.fee < MAX_FEE) (ha : amount < 2 ^ 255) {fuel out : Nat}
    (h : p.calculateSwap fuel zeroForOne amount true = .ok out) :
    ∃ c : SwapCall, c = ⟨p.fee, p.ticks, p.tickSearch, zeroForOne,
        if zeroForOne then MIN_SQRT_RATIO + 1 else MAX_SQRT_RATIO - 1, true⟩ ∧
      ∃ s, SwapCall.Grounded c ∧ SwapCall.Steady c ⟨amount, 0, p.sqrtPriceX96, p.tick, p.liquidity⟩ ∧
        c.loop fuel ⟨amount, 0, p.sqrtPriceX96, p.tick, p.liquidity⟩ = .ok s ∧ out = s.amountCalculated.natAbs := by
  unfold calculateSwap at h
  rw [amountSpecified_of_lt true ha, if_pos rfl] at h
  obtain ⟨s, hswap, h⟩ := bind_eq_ok.1 h
  obtain ⟨c, hc, hcheck, hloop⟩ := SwapCall.v3Swap_ok hswap
  have hmode : decide ((amount : Int) ≥ 0) = true := decide_eq_true (by omega)
  rw [hc] at hcheck
  obtain ⟨hground, hsteady⟩ := SwapCall.steady_start hwf p.tickSearch_or hfee (by omega) hcheck
  rw [hmode] at hc hground hsteady
  refine ⟨c, hc, s, hc ▸ hground, hc ▸ hsteady, hloop, ?_⟩
  split at h
  · cases h
  split at h
  · cases h
  · exact (Except.ok.inj h).symm

end UniswapV3Pool

/-- **An exact-input quote of more is at least as much.** -/
theorem quotes_monotone (p : UniswapV3Pool) (hwf : p.WellFormed) (hfee : p.fee < MAX_FEE) (token : Address) {a b : Nat}
    (hab : a ≤ b) (hb : b < 2 ^ 255) {fuel fuel' out out' : Nat}
    (h : p.calculateExactInput fuel token a = .ok out) (h' : p.calculateExactInput fuel' token b = .ok out') :
    out ≤ out' := by
  obtain ⟨c, hc, s, hg, hs, hloop, rfl⟩ :=
    UniswapV3Pool.calculateSwap_run hwf hfee (by omega) (UniswapV3Pool.calculateExactInput_ok h)
  obtain ⟨c', hc', u, -, hu, hloop', rfl⟩ :=
    UniswapV3Pool.calculateSwap_run hwf hfee hb (UniswapV3Pool.calculateExactInput_ok h')
  cases hc.trans hc'.symm
  have hin : c.exactInput := by rw [hc]
  have hpaid : SwapCall.Paid c ⟨a, 0, p.sqrtPriceX96, p.tick, p.liquidity⟩ ⟨a, 0, p.sqrtPriceX96, p.tick, p.liquidity⟩ 0 :=
    ⟨rfl, (Nat.zero_add _).le⟩
  obtain ⟨m, m', hm, hpaid, hpaid'⟩ := SwapCall.loop_beside hg hin hwf.price_lt hs hu ⟨rfl, rfl, rfl⟩ (by dsimp only; omega)
    hpaid ⟨rfl, hpaid.room⟩ hloop hloop'
  rw [hpaid.calculated, hpaid'.calculated]
  omega

/-- A pool of one position around price one. -/
def rangePool : UniswapV3Pool :=
  { flatPool with
    ticks := ((∅ : TickMap).insert (-600) ⟨-600, 10 ^ 18, 10 ^ 18⟩).insert 600 ⟨600, -10 ^ 18, 10 ^ 18⟩ }

theorem rangePool_wellFormed : rangePool.WellFormed := by
  have hkeys : ∀ k v, rangePool.ticks[k]? = some v → k = 600 ∨ k = -600 := fun k v hk => by
    unfold rangePool at hk
    rw [Ranges.lookup_insert, Ranges.lookup_insert] at hk
    split at hk
    · exact .inl ‹_›
    split at hk
    · exact .inr ‹_›
    · simp at hk
  have hbounds : MIN_TICK ≤ -600 ∧ (600 : Int) ≤ MAX_TICK := by decide
  refine ⟨by decide, by decide, ⟨by decide, by decide +kernel, fun _ => by decide +kernel⟩, ⟨fun k v hk => ?_, by decide +kernel⟩,
    by decide +kernel⟩
  change (MIN_TICK ≤ k ∧ k ≤ MAX_TICK) ∧ (60 : Int) ∣ k
  rcases hkeys k v hk with rfl | rfl <;> omega

/-- Two thousand of token 0 going in, against one thousand. -/
theorem quotes_monotone_thousand :
    rangePool.calculateExactInput 100 2 1000 = .ok 996 ∧ rangePool.calculateExactInput 100 2 2000 = .ok 1993 ∧
      996 ≤ 1993 := by
  have h : rangePool.calculateExactInput 100 2 1000 = .ok 996 := by decide +kernel
  have h' : rangePool.calculateExactInput 100 2 2000 = .ok 1993 := by decide +kernel
  exact ⟨h, h', quotes_monotone rangePool rangePool_wellFormed (by decide) 2 (by decide) (by decide) h h'⟩

end EvmDexPool.V3

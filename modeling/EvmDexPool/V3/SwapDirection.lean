import EvmDexPool.V3.RangeCosts
import EvmDexPool.V3.SwapLoop

/-!
# Which way a V3 swap moves the price

A round's step goes from the price to its target, whichever side that is on. From a state whose tick
is the floor tick of its price, the target is on the swap's side in every round but one: upwards,
with nothing initialized above, the search falls back to the current tick, whose price may be below
(`TurnsAround`). The comment on the no-progress check (swap_math.rs:237-246) means to stop that
fallback, and does where the step is empty.
-/

namespace EvmDexPool.V3

/-- The tick is the floor tick of the price. -/
def FloorTick (price : Nat) (tick : Int) : Prop :=
  (MIN_TICK ≤ tick ∧ tick ≤ MAX_TICK) ∧ sqrtRatio tick ≤ price ∧ (tick < MAX_TICK → price < sqrtRatio (tick + 1))

/-- An upward swap on the linked list of ticks, with none above, whose amount the range back down to
the current tick's price takes whole. -/
def TurnsAround (fee price : Nat) (tick : Int) (liquidity : Nat) (ticks : TickMap) (tickSearch : TickSearch)
    (zeroForOne : Bool) (amount : Int) (limit : Nat) : Prop :=
  zeroForOne = false ∧ tickSearch = .nextInitialized ∧ (∀ k v, ticks[k]? = some v → k ≤ tick) ∧
    price < limit ∧ limit < MAX_SQRT_RATIO ∧ amount ≠ 0 ∧ FallsBack fee price (sqrtRatio tick) liquidity amount

namespace SwapCall

variable {c : SwapCall} {s s' s₀ : SwapState} {stop : Bool}

/-! ## Down -/

/-- A run down: the price has not risen, and the next target is not above it. -/
def Falling (c : SwapCall) (s₀ : SwapState) (s : SwapState) (_ : Bool) : Prop :=
  Fits c s ∧ s.sqrtPriceX96 ≤ s₀.sqrtPriceX96 ∧
    (c.goesOn s → sqrtRatio (clampTick s.tickCurrent) ≤ s.sqrtPriceX96 ∧ c.sqrtPriceLimitX96 ≤ s.sqrtPriceX96)

theorem falling_round (hc : Accepted c) (hz : c.zeroForOne = true) (h : Falling c s₀ s false) (hgo : c.goesOn s)
    (hround : c.round s = .ok (s', stop)) : Falling c s₀ s' stop := by
  obtain ⟨hs, hle, hnext⟩ := h
  obtain ⟨hfloor, hlim⟩ := hnext hgo
  obtain ⟨found, initialized, step, hfound, hstep, hp0, hok, hprogress, hend, hs'⟩ := round_ok hc hs hgo hround
  rw [hz] at hfound
  have hfoundle := (nextInitializedTick_down hfound).1
  have htarget : c.target (sqrtRatio (clampTick found)) = max (sqrtRatio (clampTick found)) c.sqrtPriceLimitX96 := by
    unfold target; rw [if_pos hz]
  have hmono := sqrtRatio_clamp_mono hfoundle
  obtain ⟨hge, hle'⟩ := hok.le (by omega)
  have hprice := hend.state.1
  refine ⟨hs', by omega, fun hgo' => ?_⟩
  obtain ⟨hcross, htick⟩ := round_crossed hs hgo hok.moves hend hgo'
  rw [if_pos hz] at htick
  have hbelow := sqrtRatio_clamp_mono (a := clampTick found - 1) (b := clampTick found) (by omega)
  rw [clampTick_of_mem (clampTick_mem found)] at hbelow
  rw [htick, hprice, hcross]
  exact ⟨hbelow, by omega⟩

/-! ## Up -/

/-- The price is the current tick's, and below the limit. -/
def AtTick (c : SwapCall) (s : SwapState) : Prop :=
  (MIN_TICK ≤ s.tickCurrent ∧ s.tickCurrent ≤ MAX_TICK) ∧ s.sqrtPriceX96 = sqrtRatio s.tickCurrent ∧
    s.sqrtPriceX96 < c.sqrtPriceLimitX96

def NoneAbove (c : SwapCall) (s : SwapState) : Prop :=
  c.tickSearch = .nextInitialized ∧ ∀ k v, c.ticks[k]? = some v → k ≤ s.tickCurrent

/-- A run up: the price has not fallen, or it has and no round can follow. -/
def Rising (c : SwapCall) (s₀ : SwapState) (s : SwapState) (stop : Bool) : Prop :=
  Fits c s ∧ ((s₀.sqrtPriceX96 ≤ s.sqrtPriceX96 ∧ (c.goesOn s → s = s₀ ∨ AtTick c s)) ∨
    (stop = false ∧ c.goesOn s ∧ AtTick c s ∧ NoneAbove c s))

/-- Where the fallback finds the price at its own tick, the step is empty and the round fails. -/
theorem fallback_fails (hc : Accepted c) (hz : c.zeroForOne = false) (hs : Fits c s) (hat : AtTick c s) {step : SwapStep}
    (hstep : computeSwapStep s.sqrtPriceX96 (c.target (sqrtRatio (clampTick s.tickCurrent))) s.liquidity
      s.amountSpecifiedRemaining c.fee = .ok step) :
    c.noProgress s (clampTick s.tickCurrent) (sqrtRatio (clampTick s.tickCurrent)) step := by
  obtain ⟨hmem, hprice, hlim⟩ := hat
  obtain ⟨ht0, ht⟩ := hc.target_mem s.tickCurrent
  rw [clampTick_of_mem hmem] at *
  have htarget : s.sqrtPriceX96 = c.target (sqrtRatio s.tickCurrent) := by
    unfold target
    rw [hz]
    simp only [Bool.false_eq_true, if_false]
    omega
  obtain ⟨hnext, hin, hout, hfee⟩ :=
    computeSwapStep_self hs.price ht0 ht hs.liquidity hc.fee_lt htarget hstep
  exact ⟨hin, hout, hfee, .inr ⟨by simp [hz], le_rfl⟩⟩

/-- With a tick above, the target is not below the price. -/
theorem target_above (hz : c.zeroForOne = false) {found : Int} (hmem : MIN_TICK ≤ s.tickCurrent ∧ s.tickCurrent < MAX_TICK)
    (hlt : s.tickCurrent < found) (hprice : s.sqrtPriceX96 ≤ sqrtRatio (s.tickCurrent + 1))
    (hlim : s.sqrtPriceX96 < c.sqrtPriceLimitX96) : s.sqrtPriceX96 ≤ c.target (sqrtRatio (clampTick found)) := by
  have hclamp := clampTick_le (a := s.tickCurrent + 1) (b := found) (by omega)
  rw [clampTick_of_mem (a := s.tickCurrent + 1) (by omega)] at hclamp
  have hmono := sqrtRatio_mono (s := s.tickCurrent + 1) (by omega) hclamp (clampTick_mem found).2
  unfold target
  rw [hz]
  simp only [Bool.false_eq_true, if_false]
  omega

/-- The arguments of a run that `TurnsAround` reads. -/
def Turns (c : SwapCall) (s : SwapState) : Prop :=
  TurnsAround c.fee s.sqrtPriceX96 s.tickCurrent s.liquidity c.ticks c.tickSearch c.zeroForOne
    s.amountSpecifiedRemaining c.sqrtPriceLimitX96

/-- A round from below its target keeps the run rising. -/
theorem rising_of_ge (hz : c.zeroForOne = false) (hs : Fits c s) (hgo : c.goesOn s) {found : Int} {initialized : Bool}
    {step : SwapStep}
    (hok : StepOk (s.sqrtPriceX96 ≥ c.target (sqrtRatio (clampTick found))) s.sqrtPriceX96
      (c.target (sqrtRatio (clampTick found))) s.liquidity c.fee s.amountSpecifiedRemaining step)
    (hend : Ending c s (clampTick found) initialized step s' stop) (hs' : Fits c s')
    (hle : s₀.sqrtPriceX96 ≤ step.sqrtRatioNextX96) (hlim : step.sqrtRatioNextX96 ≤ c.sqrtPriceLimitX96) :
    Rising c s₀ s' stop := by
  have hprice := hend.state.1
  refine ⟨hs', .inl ⟨by omega, fun hgo' => .inr ?_⟩⟩
  obtain ⟨hcross, htick⟩ := round_crossed hs hgo hok.moves hend hgo'
  rw [hz] at htick
  simp only [Bool.false_eq_true, if_false] at htick
  have hne := hgo'.2
  refine ⟨htick ▸ clampTick_mem found, by rw [hprice, hcross, htick], by omega⟩

theorem target_le_limit (hz : c.zeroForOne = false) (x : Nat) : c.target x ≤ c.sqrtPriceLimitX96 := by
  rw [target, hz, if_neg Bool.false_ne_true]
  exact min_le_right _ _

/-- The first round, when nothing is initialized above: without the whole amount taken, a fall is
followed by an empty step. -/
theorem rising_fallback (hc : Accepted c) (hz : c.zeroForOne = false) (hs : Fits c s) (hgo : c.goesOn s)
    (hfloor : FloorTick s.sqrtPriceX96 s.tickCurrent) (hlim : s.sqrtPriceX96 < c.sqrtPriceLimitX96)
    (hnone : NoneAbove c s) (hturns : ¬c.Turns s) {step : SwapStep}
    (hstep : computeSwapStep s.sqrtPriceX96 (c.target (sqrtRatio (clampTick s.tickCurrent))) s.liquidity
      s.amountSpecifiedRemaining c.fee = .ok step)
    (hok : StepOk (s.sqrtPriceX96 ≥ c.target (sqrtRatio (clampTick s.tickCurrent))) s.sqrtPriceX96
      (c.target (sqrtRatio (clampTick s.tickCurrent))) s.liquidity c.fee s.amountSpecifiedRemaining step)
    (hprogress : ¬c.noProgress s (clampTick s.tickCurrent) (sqrtRatio (clampTick s.tickCurrent)) step)
    (hend : Ending c s (clampTick s.tickCurrent) false step s' stop) (hs' : Fits c s') : Rising c s s' stop := by
  obtain ⟨hmem, hratio, -⟩ := hfloor
  obtain ⟨ht0, ht⟩ := hc.target_mem s.tickCurrent
  obtain ⟨hprice, hrem, -⟩ := hend.state
  have hlimit := hc.limit
  rw [hz] at hlimit
  simp only [Bool.false_eq_true, if_false] at hlimit
  have hclamp := clampTick_of_mem hmem
  have htarget : c.target (sqrtRatio (clampTick s.tickCurrent)) = sqrtRatio s.tickCurrent := by
    rw [hclamp, target, hz, if_neg Bool.false_ne_true]
    exact min_eq_left (hratio.trans hlim.le)
  rw [htarget] at hstep hok ht0 ht
  obtain ⟨hge, hle⟩ := hok.le hratio
  by_cases hfall : step.sqrtRatioNextX96 < s.sqrtPriceX96
  · -- not the whole amount, so the step reached the current tick's price
    have hleft : (c.account s step).amountSpecifiedRemaining ≠ 0 := by
      intro hzero
      refine hturns ⟨hz, hnone.1, hnone.2, hlim, hlimit.2, hgo.1,
        (fallsBack_iff hs.price hs.liquidity hc.fee ht0 hratio hs.remaining.mem hgo.1).2 ⟨step, hstep, hfall, ?_⟩⟩
      have heq := (account_remaining hs.remaining hgo.1 hok).1
      have hsigned := hs.remaining
      rw [hzero] at heq
      unfold Signed at hsigned
      split at heq <;> rename_i hin <;> simp only [hin, if_true, Bool.false_eq_true, if_false] at hsigned
      · rw [if_pos (by omega)]; omega
      · rw [if_neg (by have := hgo.1; omega)]; omega
    have hreach : step.sqrtRatioNextX96 = sqrtRatio s.tickCurrent := by
      by_contra hne
      exact hleft ((account_remaining hs.remaining hgo.1 hok).2.2 hne)
    rw [hclamp] at hend hprogress
    cases hend with
    | moved tick hne _ _ => exact absurd hreach hne
    | stayed hne _ => exact absurd hreach hne
    | crossed liquidity _ hliq =>
      have hliq : liquidity = s.liquidity := by simpa using hliq
      have hpos : liquidity ≠ 0 := by
        intro h0
        obtain ⟨-, hin, hout, hfee⟩ := computeSwapStep_noLiquidity hs.price ht0 ht hs.liquidity hc.fee_lt
          (hliq ▸ h0) hstep
        exact hprogress ⟨hin, hout, hfee, .inr ⟨by simp [hz], le_rfl⟩⟩
      have hat : AtTick c { c.account s step with
          liquidity := liquidity, tickCurrent := if c.zeroForOne then s.tickCurrent - 1 else s.tickCurrent } := by
        simp only [AtTick, hz, Bool.false_eq_true, if_false, account_price]
        exact ⟨hmem, hreach, by omega⟩
      refine ⟨hs', .inr ⟨decide_eq_false hpos, ⟨hleft, ?_⟩, hat, hnone.1, ?_⟩⟩
      · simp only [account_price]; omega
      · simp only [hz, Bool.false_eq_true, if_false]
        exact hnone.2
  · exact rising_of_ge hz hs hgo (by rw [htarget]; exact hok) hend hs' (by omega) (by omega)

theorem rising_round (hc : Accepted c) (hz : c.zeroForOne = false) (hfloor : FloorTick s₀.sqrtPriceX96 s₀.tickCurrent)
    (hlim : s₀.sqrtPriceX96 < c.sqrtPriceLimitX96) (hturns : ¬c.Turns s₀) (h : Rising c s₀ s false) (hgo : c.goesOn s)
    (hround : c.round s = .ok (s', stop)) : Rising c s₀ s' stop := by
  obtain ⟨hs, hcase⟩ := h
  obtain ⟨found, initialized, step, hfound, hstep, hp0, hok, hprogress, hend, hs'⟩ := round_ok hc hs hgo hround
  have hlimit := hc.limit
  rw [hz] at hfound hlimit
  simp only [Bool.false_eq_true, if_false] at hlimit
  have hmax := sqrtRatio_max
  rcases (nextInitializedTick_up hfound).1 with ⟨hlt, -, hinit⟩ | ⟨rfl, rfl, hsearch, hall⟩
  · -- a tick above: the round goes up
    have hbelow : s₀.sqrtPriceX96 ≤ s.sqrtPriceX96 ∧ s.sqrtPriceX96 ≤ c.target (sqrtRatio (clampTick found)) := by
      rcases hcase with ⟨hle, hnext⟩ | ⟨-, -, -, hsearch, hall⟩
      · refine ⟨hle, ?_⟩
        rcases hnext hgo with rfl | ⟨hmem, hprice, hlim'⟩
        · obtain ⟨hmem, hratio, hfl⟩ := hfloor
          have hne : s.tickCurrent ≠ MAX_TICK := fun he => by rw [he, hmax] at hratio; omega
          exact target_above hz ⟨hmem.1, by omega⟩ hlt (hfl (by omega)).le hlim
        · have hne : s.tickCurrent ≠ MAX_TICK := fun he => by rw [he, hmax] at hprice; omega
          refine target_above hz ⟨hmem.1, by omega⟩ hlt ?_ hlim'
          rw [hprice]
          exact sqrtRatio_mono hmem.1 (by omega) (by omega)
      · obtain ⟨v, hv⟩ := ((nextInitializedTick_up hfound).1.resolve_right (by omega)).2.1.1 (hinit hsearch)
        have := hall _ _ hv
        omega
    obtain ⟨hge, hle⟩ := hok.ge hbelow.2
    exact rising_of_ge hz hs hgo hok hend hs' (by omega) (hle.trans (target_le_limit hz _))
  · have hnone : NoneAbove c s := ⟨hsearch, hall⟩
    have hfails : AtTick c s → False := fun hat => hprogress (fallback_fails hc hz hs hat hstep)
    rcases hcase with ⟨hle, hnext⟩ | ⟨-, -, hat, -⟩
    · rcases hnext hgo with rfl | hat
      · exact rising_fallback hc hz hs hgo hfloor hlim hnone hturns hstep hok hprogress hend hs'
      · exact (hfails hat).elim
    · exact (hfails hat).elim

/-! ## The turn -/

/-- Where the whole amount is taken on the way back down, the run returns, below where it began. -/
theorem turns_returns (hc : Accepted c) (hz : c.zeroForOne = false) (hs : Fits c s)
    (hfloor : FloorTick s.sqrtPriceX96 s.tickCurrent) (hturns : c.Turns s) :
    ∃ st, c.loop 2 s = .ok st ∧ st.sqrtPriceX96 < s.sqrtPriceX96 := by
  obtain ⟨-, hsearch, hall, hlim, hmax, hne, hback⟩ := hturns
  obtain ⟨hmem, hratio, -⟩ := hfloor
  have hclamp := clampTick_of_mem hmem
  have hrmem := sqrtRatio_mem hmem
  have hmin : 0 < MIN_SQRT_RATIO := by decide
  obtain ⟨step, hstep, hfall, hused⟩ :=
    (fallsBack_iff hs.price hs.liquidity hc.fee (by omega) hratio hs.remaining.mem hne).1 hback
  have hmax' : MAX_SQRT_RATIO < 2 ^ 160 := by decide
  have htarget : c.target (sqrtRatio s.tickCurrent) = sqrtRatio s.tickCurrent := by
    rw [target, hz, if_neg Bool.false_ne_true]
    exact min_eq_left (hratio.trans hlim.le)
  have hok := computeSwapStep_ok (by omega) hs.price (by omega) (by omega) hs.liquidity hc.fee hs.remaining.mem hstep
  have hge := (hok.le hratio).1
  -- the books close: nothing remains
  have hzero : (c.account s step).amountSpecifiedRemaining = 0 := by
    have heq := (account_remaining hs.remaining hne hok).1
    have hsigned := hs.remaining
    rw [heq]
    unfold Signed at hsigned
    split at hsigned <;> rename_i hin <;> simp only [hin, if_true, Bool.false_eq_true, if_false]
    · rw [if_pos hsigned.1] at hused; omega
    · rw [if_neg (by omega)] at hused; omega
  have hprogress : ¬c.noProgress s s.tickCurrent (sqrtRatio s.tickCurrent) step := by
    rintro ⟨h1, h2, h3, -⟩
    split at hused <;> omega
  have hfound : nextInitializedTick c.ticks s.tickCurrent c.zeroForOne c.tickSearch = .ok (s.tickCurrent, false) := by
    have hnil : Ranges.range c.ticks (fun k => decide (s.tickCurrent + 1 ≤ k)) = [] := by
      refine List.eq_nil_iff_forall_not_mem.2 fun ⟨k, v⟩ hk => ?_
      obtain ⟨hk, hle⟩ := Ranges.mem_range.1 hk
      have := hall k v hk
      have := of_decide_eq_true hle
      omega
    rw [hz, hsearch, nextInitializedTick]
    simp only [Bool.false_eq_true, if_false]
    rw [hnil]
    rfl
  have hround : ∃ s' stop, c.round s = .ok (s', stop) ∧ s'.sqrtPriceX96 = step.sqrtRatioNextX96 ∧
      s'.amountSpecifiedRemaining = 0 := by
    unfold round
    rw [hfound, ok_bind]
    change ∃ s' stop, (getSqrtRatioAtTick (clampTick s.tickCurrent) >>= _) = _ ∧ _
    rw [hclamp, getSqrtRatioAtTick_eq hmem, ok_bind, htarget, hstep, ok_bind]
    change ∃ s' stop, c.settle s (clampTick s.tickCurrent) false _ step = _ ∧ _
    rw [hclamp, settle]
    dsimp only
    rw [if_neg hprogress]
    by_cases hreach : step.sqrtRatioNextX96 = sqrtRatio s.tickCurrent
    · rw [if_pos hreach]
      exact ⟨_, _, rfl, account_price step, hzero⟩
    · obtain ⟨tick, htick⟩ := getTickAtSqrtRatio_ok (x := step.sqrtRatioNextX96) (by omega) (by omega)
      rw [if_neg hreach, if_pos (by omega), htick, ok_bind]
      exact ⟨_, _, rfl, account_price step, hzero⟩
  obtain ⟨s', stop, hround, hprice, hrem⟩ := hround
  have hgo : c.goesOn s := ⟨hne, by omega⟩
  have hend : ¬c.goesOn s' := fun h => h.1 hrem
  refine ⟨s', ?_, by omega⟩
  rw [loop, if_pos hgo, hround]
  cases stop with
  | true => rfl
  | false =>
    change c.loop 1 s' = .ok s'
    rw [loop, if_neg hend]

end SwapCall

/-- **A V3 swap moves the price its own way, unless it turns around.** From a state whose tick is the
floor tick of its price, over any tick map and either search, every run that returns ends on the
swap's side of its starting price, exactly when the call is not one of `TurnsAround`. -/
theorem v3Swap_onward {fee price liquidity : Nat} {tick : Int} {ticks : TickMap} {tickSearch : TickSearch}
    {zeroForOne : Bool} {amount : Int} {limit : Option Nat} (hfee : fee < MAX_FEE) (hp : price < 2 ^ 160)
    (hl : liquidity < 2 ^ 128) (ha : -2 ^ 255 ≤ amount ∧ amount < 2 ^ 255) (hfloor : FloorTick price tick) :
    (∀ fuel st, v3Swap fuel fee price tick liquidity ticks tickSearch zeroForOne amount limit = .ok st →
      OnSide zeroForOne price st.sqrtPriceX96) ↔
    ¬TurnsAround fee price tick liquidity ticks tickSearch zeroForOne amount
      (limit.getD (if zeroForOne then MIN_SQRT_RATIO + 1 else MAX_SQRT_RATIO - 1)) := by
  have hfits : SwapCall.Fits ⟨fee, ticks, tickSearch, zeroForOne, limit.getD
      (if zeroForOne then MIN_SQRT_RATIO + 1 else MAX_SQRT_RATIO - 1), decide (amount ≥ 0)⟩
      ⟨amount, 0, price, tick, liquidity⟩ := SwapCall.fits_start hp hl ha
  constructor
  · intro h hturns
    have hz : zeroForOne = false := hturns.1
    subst hz
    have hlim := hturns.2.2.2.1
    have hcheck : SwapCall.checkLimit ⟨fee, ticks, tickSearch, false, limit.getD ( MAX_SQRT_RATIO - 1),
        decide (amount ≥ 0)⟩ price = .ok () :=
      SwapCall.checkLimit_ok.2 ⟨hturns.2.2.2.2.1, hturns.2.2.2.1⟩
    obtain ⟨st, hst, hfall⟩ := SwapCall.turns_returns (SwapCall.accepted_of_checkLimit hfee hp hcheck) rfl hfits hfloor
      hturns
    have hrun : v3Swap 2 fee price tick liquidity ticks tickSearch false amount limit = .ok st :=
      bind_eq_ok.2 ⟨(), hcheck, hst⟩
    have hle : price ≤ st.sqrtPriceX96 := h 2 st hrun
    exact absurd hfall (Nat.not_lt.2 hle)
  · intro hturns fuel st hst
    obtain ⟨c, rfl, hcheck, hloop⟩ := SwapCall.v3Swap_ok hst
    have hc := SwapCall.accepted_of_checkLimit hfee hp hcheck
    have hlim := SwapCall.checkLimit_ok.1 hcheck
    cases zeroForOne with
    | true =>
      have hstart : sqrtRatio (SwapCall.clampTick tick) ≤ price := by
        rw [SwapCall.clampTick_of_mem hfloor.1]; exact hfloor.2.1
      obtain ⟨_, ⟨-, hle, -⟩, -⟩ := SwapCall.loop_ok (I := SwapCall.Falling _ _) hloop
        ⟨hfits, le_rfl, fun _ => ⟨hstart, hlim.2.le⟩⟩
        fun _ _ _ hI hgo hround => SwapCall.falling_round hc rfl hI hgo hround
      exact hle
    | false =>
      obtain ⟨stop, ⟨-, hcase⟩, hend⟩ := SwapCall.loop_ok (I := SwapCall.Rising _ _) hloop
        ⟨hfits, .inl ⟨le_rfl, fun _ => .inl rfl⟩⟩
        fun _ _ _ hI hgo hround => SwapCall.rising_round hc rfl hfloor hlim.2 hturns hI hgo hround
      rcases hcase with ⟨hle, -⟩ | ⟨hstop, hgo, -⟩
      · exact hle
      · rcases hend with h | h
        · exact absurd (h.symm.trans hstop) (by decide)
        · exact absurd hgo h

/-- A pool that lost its upper tick, with its price between two ticks. -/
def lostUpperTick : TickMap := (∅ : TickMap).insert (-600) ⟨-600, 10 ^ 18, 10 ^ 18⟩

theorem lostUpperTick_floor : FloorTick (2 ^ 96 + 10 ^ 24) 0 :=
  ⟨by decide, by decide +kernel, fun _ => by decide +kernel⟩

/-- A thousand of token 0 into it: the price falls, as it should. -/
theorem v3Swap_onward_down :
    ∃ st, v3Swap 2 500 (2 ^ 96 + 10 ^ 24) 0 (10 ^ 18) lostUpperTick .nextInitialized true 1000 none = .ok st ∧
      OnSide true (2 ^ 96 + 10 ^ 24) st.sqrtPriceX96 := by
  have hrun : v3Swap 2 500 (2 ^ 96 + 10 ^ 24) 0 (10 ^ 18) lostUpperTick .nextInitialized true 1000 none =
      .ok ⟨0, -999, 79229162514264258442611585977, 0, 10 ^ 18⟩ := by decide +kernel
  refine ⟨_, hrun, (v3Swap_onward ?_ ?_ ?_ ?_ lostUpperTick_floor).2 (fun h => ?_) 2 _ hrun⟩
  · decide
  · decide
  · decide
  · decide
  · exact absurd h.1 (by decide)

/-- A thousand of token 1 into it: the price falls too. -/
theorem v3Swap_onward_fails :
    FloorTick (2 ^ 96 + 10 ^ 24) 0 ∧
    ∃ st, v3Swap 2 500 (2 ^ 96 + 10 ^ 24) 0 (10 ^ 18) lostUpperTick .nextInitialized false 1000 none = .ok st ∧
      ¬OnSide false (2 ^ 96 + 10 ^ 24) st.sqrtPriceX96 := by
  refine ⟨lostUpperTick_floor, ⟨0, -999, 79229162514264258442611585977, 0, 10 ^ 18⟩, by decide +kernel, ?_⟩
  exact Nat.not_le.2 (by decide : 79229162514264258442611585977 < 2 ^ 96 + 10 ^ 24)

end EvmDexPool.V3

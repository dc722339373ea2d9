import EvmDexPool.V3.SwapTermination

/-!
# Which calls of the V3 swap do not come back

A run down takes the ticks in the order of the search, and crosses one when its amount pays for the whole range
down to it: so what it crosses is read off the ranges on the way down and off their sum (`WayDown`). A call comes
back with an `Ok` or an `Err`, unless it negates a number that has no negative: the amount `I256::MIN`, or the net
`i128::MIN` of a tick that it crosses (`v3Swap_returns_iff`).
-/

namespace EvmDexPool.V3

/-- The limit lies on the side that the price moves to. -/
def LimitFits (zeroForOne : Bool) (price limit : Nat) : Prop :=
  if zeroForOne then MIN_SQRT_RATIO < limit ∧ limit < price else limit < MAX_SQRT_RATIO ∧ price < limit

namespace SwapCall

section Way
variable (c : SwapCall)

/-- What a whole range takes of the amount. -/
def rangeCost (price stop liquidity : Nat) : Nat :=
  if c.exactInput then rangeCharge c.fee price stop liquidity else rangeOutput price stop liquidity

/-- The least amount that takes the price to `stop`. -/
def reachingCost (price stop liquidity : Nat) : Nat :=
  if c.exactInput then rangeCharge c.fee price stop liquidity else reachingOutput price stop liquidity

/-- The liquidity below a tick, where the net has a negative. -/
def Below (liquidity : Nat) (tick : Int) (initialized : Bool) (below : Nat) : Prop :=
  if initialized then ∃ t, c.ticks[tick]? = some t ∧ t.liquidityNet ≠ -2 ^ 127 ∧ below < 2 ^ 128 ∧
    (below : Int) = liquidity - t.liquidityNet
  else below = liquidity

/-- The ranges on the way down, from the price to the limit or to where there is no liquidity: what those so far come to,
and the price, the tick and the liquidity below them. -/
inductive WayDown (price : Nat) (tick : Int) (liquidity : Nat) : Nat → Nat → Int → Nat → Prop
  | start : WayDown price tick liquidity 0 price tick liquidity
  | past {spent q : Nat} {t : Int} {l : Nat} {found : Int} {initialized : Bool} {below : Nat}
      (h : WayDown price tick liquidity spent q t l)
      (hfound : nextInitializedTick c.ticks t true c.tickSearch = .ok (found, initialized))
      (hlimit : c.sqrtPriceLimitX96 < sqrtRatio (clampTick found))
      (hbelow : c.Below l (clampTick found) initialized below) (hpos : below ≠ 0) :
      WayDown price tick liquidity (spent + c.rangeCost q (sqrtRatio (clampTick found)) l) (sqrtRatio (clampTick found))
        (clampTick found - 1) below

/-- The amount gets down to a tick whose net has no negative. -/
def ReachesMin (price : Nat) (tick : Int) (liquidity amount : Nat) : Prop :=
  ∃ spent q t l found v, c.WayDown price tick liquidity spent q t l ∧ spent < amount ∧
    nextInitializedTick c.ticks t true c.tickSearch = .ok (found, true) ∧ c.ticks[clampTick found]? = some v ∧
    v.liquidityNet = -2 ^ 127 ∧ c.sqrtPriceLimitX96 ≤ sqrtRatio (clampTick found) ∧
    spent + c.reachingCost q (sqrtRatio (clampTick found)) l ≤ amount

end Way

variable {c : SwapCall} {s s' s₀ : SwapState} {stop : Bool}

/-- A step gets to its target with the amount that reaches it, and takes what the range costs or all there is. -/
theorem step_range (hc : Admitted c) (hne : c.fee ≠ MAX_FEE) (hs : Fits c s) (hgo : c.goesOn s)
    (hmin : s.amountSpecifiedRemaining ≠ -2 ^ 255) (hp0 : 0 < s.sqrtPriceX96) {target : Nat} (ht0 : 0 < target)
    (ht : target < 2 ^ 160) :
    ∃ step, computeSwapStep s.sqrtPriceX96 target s.liquidity s.amountSpecifiedRemaining c.fee = .ok step ∧
      (step.sqrtRatioNextX96 = target ↔ c.reachingCost s.sqrtPriceX96 target s.liquidity ≤ s.amountSpecifiedRemaining.natAbs) ∧
      (c.account s step).amountSpecifiedRemaining.natAbs =
        s.amountSpecifiedRemaining.natAbs - c.rangeCost s.sqrtPriceX96 target s.liquidity := by
  have hmem := hs.remaining.mem
  have hrate := hc.rate_of hs hgo
  obtain ⟨step, hstep⟩ := computeSwapStep_returns hp0 hs.price ht0 ht hs.liquidity hc.fee hne
    (fun h => lt_of_le_of_ne (hrate h) hne) (by omega)
  have hmoves := computeSwapStep_moves hp0 hs.price ht0 ht hs.liquidity hrate hmem hstep
  have hrem := (account_moves hs.remaining hgo.1 hmoves).1
  refine ⟨step, hstep, ?_⟩
  rw [hrem]
  unfold reachingCost rangeCost
  unfold computeSwapStep at hstep
  dsimp only at hstep
  by_cases hin : c.exactInput = true
  · have hnonneg := hs.remaining.nonneg hin
    simp only [if_pos hin]
    rw [if_pos (ge_iff_le.2 hnonneg)] at hstep
    rcases exactInStep_range hp0 hs.price ht0 ht hs.liquidity (by omega) (lt_of_le_of_ne (hc.rate hin) hne) hstep with
      ⟨hle, hnext, htaken⟩ | ⟨hlt, hnext, htaken, -⟩
    · refine ⟨iff_of_true hnext (by omega), by omega⟩
    · refine ⟨iff_of_false hnext (by omega), by omega⟩
  · have hneg := hs.remaining.neg hgo.1 hin
    simp only [if_neg hin]
    rw [if_neg (by omega), if_neg hmin] at hstep
    rcases exactOutStep_range hp0 hs.price ht0 ht hs.liquidity (by omega) hstep with ⟨hle, hnext, htaken⟩ | ⟨hlt, htaken, hiff, -⟩
    · have hreaching : reachingOutput s.sqrtPriceX96 target s.liquidity ≤ rangeOutput s.sqrtPriceX96 target s.liquidity :=
        min_le_left _ _
      exact ⟨iff_of_true hnext (by omega), by omega⟩
    · rw [hiff]
      refine ⟨?_, by omega⟩
      have : (-s.amountSpecifiedRemaining).toNat = s.amountSpecifiedRemaining.natAbs := by omega
      rw [this]

/-! ## Down the way -/

theorem reachingCost_le (c : SwapCall) (price stop liquidity : Nat) :
    c.reachingCost price stop liquidity ≤ c.rangeCost price stop liquidity := by
  unfold reachingCost rangeCost
  split
  · exact le_rfl
  · exact min_le_left _ _

/-- Crossing downwards is getting below the tick. -/
theorem below_iff (hz : c.zeroForOne = true) {liquidity below : Nat} {tick : Int} {initialized : Bool} :
    (if initialized then c.crossTick liquidity tick = .ok below else below = liquidity) ↔
      c.Below liquidity tick initialized below := by
  unfold Below
  cases initialized with
  | false => rfl
  | true =>
    simp only [if_true]
    constructor
    · intro h
      obtain ⟨t, ht, hlt, heq⟩ := crossTick_ok h
      rw [if_pos hz] at heq
      refine ⟨t, ht, fun hnet => ?_, hlt, by omega⟩
      rw [crossTick, getTick, ht, ok_bind, if_pos hz, if_pos hnet] at h
      cases h
    · rintro ⟨t, ht, hnet, hlt, heq⟩
      rw [crossTick, getTick, ht, ok_bind, if_pos hz, if_neg hnet, addDelta, if_pos (by omega)]
      congr 1
      omega

/-- A round down whose step gets to its tick. -/
theorem round_crosses (hz : c.zeroForOne = true) {found : Int} {initialized : Bool} {step : SwapStep} {below : Nat}
    (hfound : nextInitializedTick c.ticks s.tickCurrent true c.tickSearch = .ok (found, initialized))
    (hstep : computeSwapStep s.sqrtPriceX96 (c.target (sqrtRatio (clampTick found))) s.liquidity s.amountSpecifiedRemaining
      c.fee = .ok step)
    (hprice : step.sqrtRatioNextX96 = sqrtRatio (clampTick found)) (hbelow : c.Below s.liquidity (clampTick found) initialized below) :
    c.round s = .ok ({ c.account s step with liquidity := below, tickCurrent := clampTick found - 1 }, decide (below = 0)) := by
  rw [← below_iff hz] at hbelow
  have hprogress : ¬c.noProgress s (clampTick found) (sqrtRatio (clampTick found)) step := by
    rintro ⟨-, -, -, hne | ⟨hup, -⟩⟩
    · exact hne hprice
    · exact hup hz
  unfold SwapCall.round
  rw [hz, hfound, ok_bind]
  change (getSqrtRatioAtTick (clampTick found) >>= _) = _
  rw [getSqrtRatioAtTick_eq (clampTick_mem found), ok_bind, hstep, ok_bind]
  change c.settle s (clampTick found) initialized _ step = _
  unfold settle
  dsimp only
  rw [if_neg hprogress, if_pos hprice]
  simp only [if_pos hz]
  cases initialized with
  | false =>
    obtain rfl : below = s.liquidity := hbelow
    rfl
  | true =>
    simp only [if_true] at hbelow ⊢
    rw [hbelow]
    rfl

/-- What a run down has of the state it started in. -/
structure OnWay (c : SwapCall) (s₀ s : SwapState) (spent : Nat) : Prop where
  fits : Fits c s
  within : WithinLimit c s
  notMin : s.amountSpecifiedRemaining ≠ -2 ^ 255
  way : c.WayDown s₀.sqrtPriceX96 s₀.tickCurrent s₀.liquidity spent s.sqrtPriceX96 s.tickCurrent s.liquidity
  rest : spent + s.amountSpecifiedRemaining.natAbs = s₀.amountSpecifiedRemaining.natAbs

section Down
variable (hc : Admitted c) (hz : c.zeroForOne = true)
include hc hz

theorem limit_le (hwithin : WithinLimit c s) : 0 < c.sqrtPriceLimitX96 ∧ c.sqrtPriceLimitX96 ≤ s.sqrtPriceX96 := by
  have hlimit := hc.limit
  unfold WithinLimit OnSide at hwithin
  rw [if_pos hz] at hlimit hwithin
  exact ⟨by omega, hwithin⟩

omit hc in
theorem target_down {x : Nat} (h : c.sqrtPriceLimitX96 ≤ x) : c.target x = x := by
  unfold target
  rw [if_pos hz]
  exact max_eq_left h

/-- A round that lets the loop go on goes down the way. -/
theorem OnWay.round (hne : c.fee ≠ MAX_FEE) {spent : Nat} (h : OnWay c s₀ s spent) (hgo : c.goesOn s)
    (hround : c.round s = .ok (s', stop)) (hstop : stop = false) (hgo' : c.goesOn s') : ∃ spent', OnWay c s₀ s' spent' := by
  obtain ⟨hlimit0, hlimit⟩ := limit_le hc hz h.within
  obtain ⟨found, initialized, step, hfound, hstep, hp0, hmoves, -, hend, hs'⟩ := round_moves hc h.fits hgo hround
  obtain ⟨-, hwithin', -⟩ := round_progress hc h.fits h.within hgo hround
  obtain ⟨ht0, ht⟩ := hc.target_mem found
  obtain ⟨hprice, htick⟩ := round_crossed h.fits hgo hmoves hend hgo'
  rw [if_pos hz] at htick
  obtain ⟨hprice', hrem', -⟩ := hend.state
  have hpast : c.sqrtPriceLimitX96 < sqrtRatio (clampTick found) := by
    have hle := hwithin'
    unfold WithinLimit OnSide at hle
    rw [if_pos hz] at hle
    have := hgo'.2
    omega
  obtain ⟨step', hstep', -, hleft⟩ := step_range hc hne h.fits hgo h.notMin hp0 ht0 ht
  cases hstep.symm.trans hstep'
  rw [← hrem', target_down hz hpast.le] at hleft
  have hleft' := hgo'.1
  have hrest := h.rest
  have hmem := h.fits.remaining.mem
  have hnotMin := h.notMin
  refine ⟨spent + c.rangeCost s.sqrtPriceX96 (sqrtRatio (clampTick found)) s.liquidity, hs', hwithin', by omega, ?_, by omega⟩
  rw [hprice', hprice, htick]
  rw [hz] at hfound
  cases hend with
  | crossed below _ hliq => exact .past h.way hfound hpast ((below_iff hz).1 hliq) (of_decide_eq_false hstop)
  | moved tick hne' _ _ => exact absurd hprice hne'
  | stayed hne' _ => exact absurd hprice hne'

/-- And a run goes down all of the way that the amount pays for. -/
theorem WayDown.reaches (hne : c.fee ≠ MAX_FEE) (h0 : OnWay c s₀ s₀ 0) (hgo : c.goesOn s₀) {spent q : Nat} {t : Int} {l : Nat}
    (h : c.WayDown s₀.sqrtPriceX96 s₀.tickCurrent s₀.liquidity spent q t l) (hlt : spent < s₀.amountSpecifiedRemaining.natAbs) :
    ∃ s, Reaches c s₀ s false ∧ c.goesOn s ∧ OnWay c s₀ s spent ∧ s.sqrtPriceX96 = q ∧ s.tickCurrent = t ∧ s.liquidity = l := by
  induction h with
  | start => exact ⟨s₀, .start, hgo, h0, rfl, rfl, rfl⟩
  | @past spent q t l found initialized below hway hfound hpast hbelow hpos ih =>
    obtain ⟨s, hreach, hgo, hs, rfl, rfl, rfl⟩ := ih (by omega)
    obtain ⟨hlimit0, hlimit⟩ := limit_le hc hz hs.within
    obtain ⟨ht0, ht⟩ := hc.target_mem found
    obtain ⟨step, hstep, hreaches, hleft⟩ := step_range hc hne hs.fits hgo hs.notMin (by omega) ht0 ht
    have hrest := hs.rest
    rw [target_down hz hpast.le] at hreaches hleft
    have hle := c.reachingCost_le s.sqrtPriceX96 (sqrtRatio (clampTick found)) s.liquidity
    have hround := round_crosses hz hfound hstep (hreaches.2 (by omega)) hbelow
    have hprice : step.sqrtRatioNextX96 = sqrtRatio (clampTick found) := hreaches.2 (by omega)
    have hgo' : c.goesOn { c.account s step with liquidity := below, tickCurrent := clampTick found - 1 } := by
      refine ⟨fun hzero => ?_, ?_⟩
      · have hzero : (c.account s step).amountSpecifiedRemaining = 0 := hzero
        omega
      · simp only [account_price]
        omega
    obtain ⟨hs', hwithin', -⟩ := round_progress hc hs.fits hs.within hgo hround
    have hmem := hs.fits.remaining.mem
    have hnotMin := hs.notMin
    refine ⟨_, (decide_eq_false hpos) ▸ .round hreach hgo hround, hgo', ⟨hs', hwithin', ?_, ?_, ?_⟩, ?_, rfl, rfl⟩
    · dsimp only
      omega
    · simp only [account_price]
      rw [hprice]
      exact .past hway hfound hpast hbelow hpos
    · dsimp only
      omega
    · simp only [account_price]
      exact hprice

/-- A round crosses a tick without a negative when the amount that is left reaches it. -/
theorem crossesMin_iff {spent : Nat} (h : OnWay c s₀ s spent) (hgo : c.goesOn s) (hne : c.fee ≠ MAX_FEE) :
    c.CrossesMin s ↔ ∃ found v, nextInitializedTick c.ticks s.tickCurrent true c.tickSearch = .ok (found, true) ∧
      c.ticks[clampTick found]? = some v ∧ v.liquidityNet = -2 ^ 127 ∧ c.sqrtPriceLimitX96 ≤ sqrtRatio (clampTick found) ∧
      spent + c.reachingCost s.sqrtPriceX96 (sqrtRatio (clampTick found)) s.liquidity ≤ s₀.amountSpecifiedRemaining.natAbs := by
  obtain ⟨hlimit0, hlimit⟩ := limit_le hc hz h.within
  have hrest := h.rest
  have hrate := hc.rate_of h.fits hgo
  constructor
  · rintro ⟨-, found, v, step, hfound, hstep, hprice, hv, hnet⟩
    obtain ⟨ht0, ht⟩ := hc.target_mem found
    obtain ⟨step', hstep', hreaches, -⟩ := step_range hc hne h.fits hgo h.notMin (by omega) ht0 ht
    cases hstep.symm.trans hstep'
    have hmoves := computeSwapStep_moves (by omega) h.fits.price ht0 ht h.fits.liquidity hrate h.fits.remaining.mem hstep
    have hmem := onSide_mem hmoves.onSide hmoves.notPast
    have hwithin := target_within (c := c) (sqrtRatio (clampTick found))
    unfold OnSide at hwithin
    rw [if_pos hz] at hwithin
    have hpast : c.sqrtPriceLimitX96 ≤ sqrtRatio (clampTick found) := by omega
    rw [target_down hz hpast] at hreaches
    exact ⟨found, v, hfound, hv, hnet, hpast, by have := hreaches.1 hprice; omega⟩
  · rintro ⟨found, v, hfound, hv, hnet, hpast, hle⟩
    obtain ⟨ht0, ht⟩ := hc.target_mem found
    obtain ⟨step, hstep, hreaches, -⟩ := step_range hc hne h.fits hgo h.notMin (by omega) ht0 ht
    rw [target_down hz hpast] at hreaches
    exact ⟨hz, found, v, step, hfound, hstep, hreaches.2 (by omega), hv, hnet⟩

/-- At a rate of one nothing is crossed. -/
theorem not_crossesMin (hs : Fits c s) (hlim : WithinLimit c s) (hmin : s.amountSpecifiedRemaining ≠ -2 ^ 255)
    (hfee : c.fee = MAX_FEE) : ¬c.CrossesMin s := by
  rintro ⟨-, found, v, step, -, hstep, hprice, -⟩
  obtain ⟨hlimit0, hlimit⟩ := limit_le hc hz hlim
  obtain ⟨ht0, ht⟩ := hc.target_mem found
  have hside := onSide_of_ge s.sqrtPriceX96 (c.target (sqrtRatio (clampTick found)))
  have hmem := hs.remaining.mem
  unfold computeSwapStep at hstep
  dsimp only at hstep
  rw [hfee] at hstep
  split at hstep
  · obtain ⟨hnext, hoff, -⟩ := exactInStep_wholeFee (by omega) hs.price ht0 ht hs.liquidity hside (by omega) hstep
    rw [← hnext, hprice] at hlimit
    rw [target_down hz hlimit] at hoff
    exact hoff (hnext.symm.trans hprice)
  · obtain ⟨stop, -, hin, hf, -⟩ := exactOutStep_cases (by omega) hs.price ht0 ht hs.liquidity hside hstep
    have hcomplement : Fixed.wsub 256 MAX_FEE MAX_FEE = 0 := by decide
    rw [hcomplement] at hf
    have hdiv := (mulDivRoundingUp_ok (inputDelta_word hin) (by decide) (by decide) hf).1
    exact absurd hdiv (Nat.lt_irrefl 0)

end Down

/-! ## The run -/

/-- Where a run ends in a fault, a round of it does. -/
theorem loop_fault {e : Fault} : ∀ {fuel : Nat} {s : SwapState}, Reaches c s₀ s false → c.loop fuel s = .error e →
    e = .diverges ∨ ∃ s', Reaches c s₀ s' false ∧ c.goesOn s' ∧ c.round s' = .error e
  | 0, _, _, h => .inl (by cases h; rfl)
  | fuel + 1, s, hreach, h => by
    unfold loop at h
    split at h
    · rename_i hgo
      split at h
      · rename_i s₁ stop₁ hround
        split at h
        · cases h
        · rename_i hstop
          exact loop_fault ((Bool.not_eq_true _ ▸ hstop) ▸ Reaches.round hreach hgo hround) h
      · rename_i hround
        cases h
        exact .inr ⟨s, hreach, hgo, hround⟩
    · cases h

/-- A run is, from each state it reaches, the run from there. -/
theorem Reaches.loop (h : Reaches c s₀ s stop) (hstop : stop = false) : ∃ k, ∀ fuel, c.loop (fuel + k) s₀ = c.loop fuel s := by
  induction h with
  | start => exact ⟨0, fun _ => rfl⟩
  | @round s s' stop _ hgo hround ih =>
    obtain ⟨k, hk⟩ := ih rfl
    refine ⟨k + 1, fun fuel => ?_⟩
    rw [show fuel + (k + 1) = fuel + 1 + k by omega, hk, SwapCall.loop, if_pos hgo, hround, hstop]
    rfl

/-- So a fault of one of its rounds is the run's. -/
theorem Reaches.fault (h : Reaches c s₀ s false) (hgo : c.goesOn s) {e : Fault} (hround : c.round s = .error e) {fuel : Nat}
    (hends : Ends (c.loop fuel s₀)) : c.loop fuel s₀ = .error e := by
  obtain ⟨k, hk⟩ := h.loop rfl
  have hfault : c.loop (fuel + 1 + k) s₀ = .error e := by rw [hk, SwapCall.loop, if_pos hgo, hround]
  rw [← loop_fuel hends (show fuel ≤ fuel + 1 + k by omega), hfault]

/-- What every round keeps, whichever way it goes. -/
theorem Reaches.keeps (hc : Admitted c) (h : Reaches c s₀ s stop) (h0 : OnWay c s₀ s₀ 0) :
    Fits c s ∧ WithinLimit c s ∧ s.amountSpecifiedRemaining ≠ -2 ^ 255 := by
  refine h.rule (I := fun s _ => Fits c s ∧ WithinLimit c s ∧ s.amountSpecifiedRemaining ≠ -2 ^ 255)
    ⟨h0.fits, h0.within, h0.notMin⟩ fun s s' stop ⟨hs, hlim, hmin⟩ hgo hround => ?_
  obtain ⟨hs', hlim', -⟩ := round_progress hc hs hlim hgo hround
  obtain ⟨found, initialized, step, -, -, -, hmoves, -, hend, -⟩ := round_moves hc hs hgo hround
  refine ⟨hs', hlim', ?_⟩
  have hrem := (account_moves hs.remaining hgo.1 hmoves).1
  have hmem := hs.remaining.mem
  have hmem' := hs'.remaining
  unfold Signed at hmem'
  rw [hend.state.2.1, hrem] at hmem' ⊢
  split at hmem' <;> rename_i hin
  · omega
  · rw [if_neg hin]
    omega

/-- On a run down every state that is reached is on the way. -/
theorem Reaches.onWay (hc : Admitted c) (hz : c.zeroForOne = true) (hne : c.fee ≠ MAX_FEE) (h : Reaches c s₀ s stop)
    (h0 : OnWay c s₀ s₀ 0) (hstop : stop = false) (hgo : c.goesOn s) : ∃ spent, OnWay c s₀ s spent := by
  induction h with
  | start => exact ⟨0, h0⟩
  | round _ hgo' hround ih =>
    obtain ⟨spent, hs⟩ := ih rfl hgo'
    exact hs.round hc hz hne hgo' hround hstop hgo

/-- **A run comes back** unless the amount gets down to a tick whose net has no negative. -/
theorem loop_returns_iff (hc : Admitted c) (h0 : OnWay c s₀ s₀ 0) (hlimit : s₀.sqrtPriceX96 ≠ c.sqrtPriceLimitX96) {fuel : Nat}
    (hends : Ends (c.loop fuel s₀)) :
    Returns (c.loop fuel s₀) ↔ ¬(c.zeroForOne = true ∧ c.fee ≠ MAX_FEE ∧
      c.ReachesMin s₀.sqrtPriceX96 s₀.tickCurrent s₀.liquidity s₀.amountSpecifiedRemaining.natAbs) := by
  constructor
  · rintro hreturns ⟨hz, hne, spent, q, t, l, found, v, hway, hlt, hfound, hv, hnet, hpast, hle⟩
    have hgo : c.goesOn s₀ := ⟨by omega, hlimit⟩
    obtain ⟨s, hreach, hgo', hs, rfl, rfl, rfl⟩ := hway.reaches hc hz hne h0 hgo hlt
    have hcross := (crossesMin_iff hc hz hs hgo' hne).2 ⟨found, v, hfound, hv, hnet, hpast, hle⟩
    rw [hreach.fault hgo' hcross.round hends] at hreturns
    exact hreturns
  · intro hno
    cases hloop : c.loop fuel s₀ with
    | ok st => exact returns_ok _
    | error e =>
      rcases loop_fault .start hloop with rfl | ⟨s, hreach, hgo, hround⟩
      · exact absurd hloop hends
      obtain ⟨hfits, hlim, hmin⟩ := hreach.keeps hc h0
      rcases round_outcome hc hfits hgo with hreturns | ⟨-, hcross | hmin'⟩
      · rw [hround] at hreturns
        cases e <;> exact hreturns
      · exfalso
        have hz := hcross.1
        by_cases hne : c.fee = MAX_FEE
        · exact not_crossesMin hc hz hfits hlim hmin hne hcross
        obtain ⟨spent, hs⟩ := hreach.onWay hc hz hne h0 rfl hgo
        obtain ⟨found, v, hfound, hv, hnet, hpast, hle⟩ := (crossesMin_iff hc hz hs hgo hne).1 hcross
        refine hno ⟨hz, hne, spent, _, _, _, found, v, hs.way, ?_, hfound, hv, hnet, hpast, hle⟩
        have := hs.rest
        have := hgo.1
        omega
      · exact absurd hmin' hmin

/-- A run from a typed state has one result, and `2^25` rounds reach it. -/
theorem loop_result (hc : Admitted c) (hs : Fits c s) (hlim : WithinLimit c s)
    (htick : -2 ^ 23 ≤ s.tickCurrent ∧ s.tickCurrent < 2 ^ 23) :
    ∃ result, Ends result ∧ ∀ fuel, 2 ^ 25 ≤ fuel → c.loop fuel s = result := by
  have hfuel : 2 ^ 25 - 1 < 2 ^ 25 := by decide
  have hends := loop_ends hc hs hlim (rank_lt htick) hfuel
  exact ⟨_, hends, fun fuel hfuel => loop_fuel hends hfuel⟩

theorem checkLimit_returns (price : Nat) : Returns (c.checkLimit price) := by
  unfold checkLimit
  split <;> split
  · exact returns_msg _
  · split
    · exact returns_msg _
    · exact returns_ok _
  · exact returns_msg _
  · split
    · exact returns_msg _
    · exact returns_ok _

theorem checkLimit_fits {price : Nat} : c.checkLimit price = .ok () ↔ LimitFits c.zeroForOne price c.sqrtPriceLimitX96 :=
  checkLimit_ok

/-- The call has no negative for its amount, or for the net of a tick on the way down. -/
def Negates (c : SwapCall) (price : Nat) (tick : Int) (liquidity : Nat) (amount : Int) : Prop :=
  amount = -2 ^ 255 ∨ (c.zeroForOne = true ∧ c.ReachesMin price tick liquidity amount.natAbs)

/-- The whole call but its limit check: it comes back unless it negates such a number. -/
theorem loop_negates {price liquidity : Nat} {tick amount : Int} (hc : Accepted c)
    (hs : Fits c ⟨amount, 0, price, tick, liquidity⟩) (hcheck : c.checkLimit price = .ok ())
    (hspacing : ∀ tickSpacing, c.tickSearch = .wordBounded tickSpacing → 0 < tickSpacing) {fuel : Nat}
    (hends : Ends (c.loop fuel ⟨amount, 0, price, tick, liquidity⟩)) :
    Returns (c.loop fuel ⟨amount, 0, price, tick, liquidity⟩) ↔ ¬c.Negates price tick liquidity amount := by
  have hlim : WithinLimit c ⟨amount, 0, price, tick, liquidity⟩ := withinLimit_of_checkLimit hcheck
  have hlimit : price ≠ c.sqrtPriceLimitX96 := by
    have hfits := checkLimit_ok.1 hcheck
    split at hfits <;> omega
  by_cases hmin : amount = -2 ^ 255
  · refine iff_of_false (fun hreturns => ?_) fun h => h (.inl hmin)
    obtain ⟨found, initialized, hfound⟩ := nextInitializedTick_finds c.ticks tick c.zeroForOne hspacing
    have hgo : c.goesOn ⟨amount, 0, price, tick, liquidity⟩ := ⟨by dsimp only; omega, hlimit⟩
    rw [Reaches.start.fault hgo (round_min hmin hfound) hends] at hreturns
    exact hreturns
  · rw [loop_returns_iff hc.admitted ⟨hs, hlim, hmin, .start, Nat.zero_add _⟩ hlimit hends, Negates, or_iff_right hmin,
      and_iff_right hc.fee.ne]

end SwapCall

/-- The call of the loop for the arguments of `v3_swap`. -/
def v3SwapCall (fee : Nat) (ticks : TickMap) (tickSearch : TickSearch) (zeroForOne : Bool) (amount : Int) (limit : Option Nat) :
    SwapCall :=
  ⟨fee, ticks, tickSearch, zeroForOne, limit.getD (if zeroForOne then MIN_SQRT_RATIO + 1 else MAX_SQRT_RATIO - 1),
    decide (amount ≥ 0)⟩

/-- The call's result does not depend on the fuel left over. -/
theorem v3Swap_fuel {k fuel fee price liquidity : Nat} {tick : Int} {ticks : TickMap} {tickSearch : TickSearch}
    {zeroForOne : Bool} {amount : Int} {limit : Option Nat} {result : Except Fault SwapState} (hends : Ends result)
    (h : v3Swap k fee price tick liquidity ticks tickSearch zeroForOne amount limit = result) (hk : k ≤ fuel) :
    v3Swap fuel fee price tick liquidity ticks tickSearch zeroForOne amount limit = result := by
  unfold v3Swap at h ⊢
  dsimp only at h ⊢
  cases hcheck : SwapCall.checkLimit
    ⟨fee, ticks, tickSearch, zeroForOne, limit.getD (if zeroForOne then MIN_SQRT_RATIO + 1 else MAX_SQRT_RATIO - 1),
      decide (amount ≥ 0)⟩ price with
  | error e =>
    rw [hcheck] at h
    exact h
  | ok u =>
    rw [hcheck, ok_bind] at h
    rw [ok_bind, ← h]
    exact SwapCall.loop_fuel (h ▸ hends) hk

/-- **A call of `v3_swap` comes back**, with an `Ok` or an `Err` that `2^25` rounds reach, on every tick map and search and
from every 24-bit tick, price and liquidity, exactly when it has nothing to negate that has no negative. -/
theorem v3Swap_returns_iff {fee price liquidity : Nat} {tick : Int} {ticks : TickMap} {tickSearch : TickSearch}
    {zeroForOne : Bool} {amount : Int} {limit : Option Nat} (hfee : fee < MAX_FEE) (hp : price < 2 ^ 160)
    (hl : liquidity < 2 ^ 128) (ha : -2 ^ 255 ≤ amount ∧ amount < 2 ^ 255) (htick : -2 ^ 23 ≤ tick ∧ tick < 2 ^ 23)
    (hspacing : ∀ tickSpacing, tickSearch = .wordBounded tickSpacing → 0 < tickSpacing ∧ tickSpacing < 2 ^ 23) :
    (∃ result, Returns result ∧
      ∀ fuel, 2 ^ 25 ≤ fuel → v3Swap fuel fee price tick liquidity ticks tickSearch zeroForOne amount limit = result) ↔
    ¬(LimitFits zeroForOne price (v3SwapCall fee ticks tickSearch zeroForOne amount limit).sqrtPriceLimitX96 ∧
      (v3SwapCall fee ticks tickSearch zeroForOne amount limit).Negates price tick liquidity amount) := by
  unfold v3Swap
  dsimp only
  generalize hcall : v3SwapCall fee ticks tickSearch zeroForOne amount limit = c
  have hfits : SwapCall.Fits c ⟨amount, 0, price, tick, liquidity⟩ := hcall ▸ SwapCall.fits_start hp hl ha
  have hcfee : c.fee = fee := hcall ▸ rfl
  have hz : zeroForOne = c.zeroForOne := hcall ▸ rfl
  have hsearch : tickSearch = c.tickSearch := hcall ▸ rfl
  change (∃ result, Returns result ∧ ∀ fuel, 2 ^ 25 ≤ fuel →
    ((v3SwapCall fee ticks tickSearch zeroForOne amount limit).checkLimit price >>= fun _ =>
      (v3SwapCall fee ticks tickSearch zeroForOne amount limit).loop fuel ⟨amount, 0, price, tick, liquidity⟩) = result) ↔ _
  rw [hcall, hz, ← SwapCall.checkLimit_fits]
  cases hcheck : c.checkLimit price with
  | error e =>
    refine iff_of_true ⟨.error e, ?_, fun _ _ => rfl⟩ fun h => ?_
    · obtain ⟨_, hok⟩ | ⟨_, herr⟩ := returns_iff.1 (SwapCall.checkLimit_returns (c := c) price)
      · cases hcheck.symm.trans hok
      · cases hcheck.symm.trans herr
        exact returns_msg _
    · cases h.1
  | ok u =>
    have hc := SwapCall.accepted_of_checkLimit (hcfee ▸ hfee) hp hcheck
    obtain ⟨result, hends, hresult⟩ := SwapCall.loop_result hc.admitted hfits (SwapCall.withinLimit_of_checkLimit hcheck) htick
    have hreturns : Returns result ↔ ¬c.Negates price tick liquidity amount := by
      rw [← hresult _ le_rfl] at hends ⊢
      exact SwapCall.loop_negates hc hfits hcheck (fun s hs => (hspacing s (hsearch.trans hs)).1) hends
    refine Iff.trans ⟨?_, fun h => ⟨result, h, hresult⟩⟩ (hreturns.trans (not_congr (and_iff_right rfl).symm))
    rintro ⟨result', h, hresult'⟩
    cases (hresult _ le_rfl).symm.trans (hresult' _ le_rfl)
    exact h

/-- From a stale tick, far from the price, with nothing initialized. -/
theorem v3Swap_returns_stale :
    ∃ result, Returns result ∧
      ∀ fuel, 2 ^ 25 ≤ fuel → v3Swap fuel 500 (2 ^ 96) 8000000 (10 ^ 18) ∅ (.wordBounded 60) true 1000 none = result := by
  refine (v3Swap_returns_iff (by decide) (by decide) (by decide) (by decide) (by decide) fun s hs => ?_).2 ?_
  · cases hs
    decide
  · rintro ⟨-, hmin | ⟨-, spent, q, t, l, found, v, -, -, -, hv, -⟩⟩
    · exact absurd hmin (by decide)
    · cases hv

/-- A tick below price one with the net `i128::MIN`. -/
def brinkTicks : TickMap := (∅ : TickMap).insert (-600) ⟨-600, -2 ^ 127, 2 ^ 127⟩

/-- An amount that gets to it, and `I256::MIN` before any tick is looked at. -/
theorem v3Swap_returns_fails :
    (∀ fuel, 2 ^ 25 ≤ fuel → v3Swap fuel 3000 (2 ^ 96) 0 (10 ^ 18) brinkTicks (.wordBounded 60) true (10 ^ 17) none =
      .error .overflow) ∧
    ∀ fuel, 2 ^ 25 ≤ fuel → v3Swap fuel 3000 (2 ^ 96) 0 (10 ^ 18) brinkTicks (.wordBounded 60) true (-2 ^ 255) none =
      .error .overflow :=
  ⟨fun _ hfuel => v3Swap_fuel ends_overflow (k := 2) (by decide +kernel) ((by decide : 2 ≤ 2 ^ 25).trans hfuel),
    fun _ hfuel => v3Swap_fuel ends_overflow (k := 1) (by decide +kernel) ((by decide : 1 ≤ 2 ^ 25).trans hfuel)⟩

end EvmDexPool.V3

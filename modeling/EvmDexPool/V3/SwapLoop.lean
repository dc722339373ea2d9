import EvmDexPool.V3.SwapMath

/-!
# What a round of the V3 swap can do

A step that stops short of its target has used the amount up (`round_short`), so every round but the
last ends at the price of the tick it searched for, and crosses it.
-/

namespace EvmDexPool.V3.SwapCall

open Fixed

variable {c : SwapCall} {s s' s₀ : SwapState} {stop : Bool}

/-- The amount that remains has the sign of the mode. -/
def Signed (c : SwapCall) (remaining : Int) : Prop :=
  if c.exactInput then 0 ≤ remaining ∧ remaining < 2 ^ 255 else -2 ^ 255 ≤ remaining ∧ remaining ≤ 0

theorem Signed.mem {r : Int} (h : c.Signed r) : -2 ^ 255 ≤ r ∧ r < 2 ^ 255 := by
  unfold Signed at h
  split at h <;> omega

theorem fromRaw_of_lt {n : Nat} (h : n < 2 ^ 255) : fromRaw n = n := toSigned_of_lt h

theorem fromRaw_neg {n : Nat} (h : 2 ^ 255 ≤ n) (h' : n < 2 ^ 256) : fromRaw n = (n : Int) - 2 ^ 256 := by
  unfold fromRaw toSigned
  rw [if_neg (by omega)]

theorem intoRaw_natCast {n : Nat} (h : n < 2 ^ 256) : intoRaw n = n := ofSigned_natCast h

theorem intoRaw_neg {x : Int} (h : -2 ^ 255 ≤ x) (h' : x < 0) : (intoRaw x : Int) = x + 2 ^ 256 := by
  unfold intoRaw ofSigned
  omega

/-- A signed word read back, by congruence. -/
theorem fromRaw_of_modEq {n : Nat} {x : Int} (hn : n < 2 ^ 256) (hx : -2 ^ 255 ≤ x ∧ x < 2 ^ 255)
    (h : (n : Int) ≡ x [ZMOD 2 ^ 256]) : fromRaw n = x := by
  have hmod : (n : Int) % 2 ^ 256 = x % 2 ^ 256 := h
  unfold fromRaw toSigned
  split <;> omega

theorem intoRaw_modEq (x : Int) : (intoRaw x : Int) ≡ x [ZMOD 2 ^ 256] := by
  unfold intoRaw ofSigned
  rw [Int.toNat_of_nonneg (Int.emod_nonneg _ (by norm_num))]
  exact Int.mod_modEq _ _

/-- A step within what remains is taken off it: nothing wraps. -/
theorem account_within {step : SwapStep} (hs : c.Signed s.amountSpecifiedRemaining)
    (h0 : s.amountSpecifiedRemaining ≠ 0)
    (hin : c.exactInput → (step.amountIn + step.feeAmount : Int) ≤ s.amountSpecifiedRemaining)
    (hout : ¬c.exactInput → (step.amountOut : Int) ≤ -s.amountSpecifiedRemaining) :
    (c.account s step).amountSpecifiedRemaining =
      (if c.exactInput then s.amountSpecifiedRemaining - (step.amountIn + step.feeAmount)
        else s.amountSpecifiedRemaining + step.amountOut) ∧
      c.Signed (c.account s step).amountSpecifiedRemaining := by
  unfold Signed at hs
  unfold account Signed
  by_cases hmode : c.exactInput
  · rw [if_pos hmode] at hs
    have hle := hin hmode
    obtain ⟨n, hn⟩ := Int.eq_ofNat_of_zero_le hs.1
    have hsub : fromRaw (wsub 256 (wsub 256 (intoRaw s.amountSpecifiedRemaining) step.amountIn) step.feeAmount) =
        s.amountSpecifiedRemaining - (step.amountIn + step.feeAmount) := by
      have hfirst : wsub 256 n step.amountIn = n - step.amountIn := wsub_of_le (by omega) (by omega)
      rw [hn, intoRaw_natCast (by omega), hfirst, wsub_of_le (by omega) (by omega), fromRaw_of_lt (by omega)]
      omega
    simp only [hmode, if_true, hsub]
    exact ⟨trivial, by omega⟩
  · rw [if_neg hmode] at hs
    have hle := hout hmode
    have hraw := intoRaw_neg hs.1 (by omega)
    have hadd : fromRaw (wadd 256 (intoRaw s.amountSpecifiedRemaining) step.amountOut) =
        s.amountSpecifiedRemaining + step.amountOut := by
      by_cases hall : s.amountSpecifiedRemaining + step.amountOut = 0
      · have hwrap : wadd 256 (intoRaw s.amountSpecifiedRemaining) step.amountOut = 0 := by unfold wadd; omega
        rw [hwrap, fromRaw_of_lt (by decide), hall]; rfl
      · rw [wadd_of_lt (by omega), fromRaw_neg (by omega) (by omega)]
        omega
    simp only [hmode, Bool.false_eq_true, if_false, hadd]
    exact ⟨trivial, by omega⟩

theorem Signed.nonneg {r : Int} (h : c.Signed r) (hin : c.exactInput) : 0 ≤ r := by
  rw [Signed, if_pos hin] at h
  exact h.1

theorem Signed.neg {r : Int} (h : c.Signed r) (h0 : r ≠ 0) (hin : ¬c.exactInput) : r < 0 := by
  rw [Signed, if_neg hin] at h
  omega

/-- The remaining amount, as the step leaves it. -/
theorem account_moves {price target : Nat} {zeroForOne : Bool} {step : SwapStep}
    (hs : c.Signed s.amountSpecifiedRemaining) (h0 : s.amountSpecifiedRemaining ≠ 0)
    (hok : StepMoves zeroForOne price target s.amountSpecifiedRemaining step) :
    (c.account s step).amountSpecifiedRemaining =
      (if c.exactInput then s.amountSpecifiedRemaining - (step.amountIn + step.feeAmount)
        else s.amountSpecifiedRemaining + step.amountOut) ∧
      c.Signed (c.account s step).amountSpecifiedRemaining ∧
      (step.sqrtRatioNextX96 ≠ target → (c.account s step).amountSpecifiedRemaining = 0) := by
  obtain ⟨heq, hsigned⟩ := account_within hs h0 (fun hin => (hok.exactIn (hs.nonneg hin)).1)
    (fun hout => (hok.exactOut (hs.neg h0 hout)).1)
  refine ⟨heq, hsigned, fun hne => ?_⟩
  rw [heq]
  split
  · rename_i hin
    have := (hok.exactIn (hs.nonneg hin)).2 hne
    omega
  · rename_i hout
    have := (hok.exactOut (hs.neg h0 hout)).2 hne
    omega

theorem account_remaining {price target fee : Nat} {zeroForOne : Bool} {step : SwapStep}
    (hs : c.Signed s.amountSpecifiedRemaining) (h0 : s.amountSpecifiedRemaining ≠ 0)
    (hok : StepOk zeroForOne price target s.liquidity fee s.amountSpecifiedRemaining step) :
    (c.account s step).amountSpecifiedRemaining =
      (if c.exactInput then s.amountSpecifiedRemaining - (step.amountIn + step.feeAmount)
        else s.amountSpecifiedRemaining + step.amountOut) ∧
      c.Signed (c.account s step).amountSpecifiedRemaining ∧
      (step.sqrtRatioNextX96 ≠ target → (c.account s step).amountSpecifiedRemaining = 0) :=
  account_moves hs h0 hok.moves

@[simp] theorem account_price (step : SwapStep) : (c.account s step).sqrtPriceX96 = step.sqrtRatioNextX96 := by
  unfold account; split <;> rfl

@[simp] theorem account_tick (step : SwapStep) : (c.account s step).tickCurrent = s.tickCurrent := by
  unfold account; split <;> rfl

@[simp] theorem account_liquidity (step : SwapStep) : (c.account s step).liquidity = s.liquidity := by
  unfold account; split <;> rfl

/-! ## A round -/

/-- The tick a round goes for: the one its search found, taken into bounds. -/
def clampTick (tick : Int) : Int := max MIN_TICK (min tick MAX_TICK)

theorem clampTick_mem (tick : Int) : MIN_TICK ≤ clampTick tick ∧ clampTick tick ≤ MAX_TICK := by
  unfold clampTick MIN_TICK MAX_TICK; omega

theorem clampTick_le {a b : Int} (h : a ≤ b) : clampTick a ≤ clampTick b := by
  unfold clampTick; omega

theorem clampTick_of_mem {a : Int} (h : MIN_TICK ≤ a ∧ a ≤ MAX_TICK) : clampTick a = a := by
  unfold clampTick; omega

theorem sqrtRatio_clamp_mono {a b : Int} (h : a ≤ b) : sqrtRatio (clampTick a) ≤ sqrtRatio (clampTick b) :=
  sqrtRatio_mono (clampTick_mem a).1 (clampTick_le h) (clampTick_mem b).2

/-- How a round ends after its step: past the tick it went for, or before it. -/
inductive Ending (c : SwapCall) (s : SwapState) (tickNext : Int) (initialized : Bool) (step : SwapStep) :
    SwapState → Bool → Prop
  | crossed (liquidity : Nat) (hprice : step.sqrtRatioNextX96 = sqrtRatio tickNext)
      (hliq : if initialized then c.crossTick s.liquidity tickNext = .ok liquidity else liquidity = s.liquidity) :
      Ending c s tickNext initialized step
        { c.account s step with liquidity := liquidity, tickCurrent := if c.zeroForOne then tickNext - 1 else tickNext }
        (decide (liquidity = 0))
  | moved (tick : Int) (hprice : step.sqrtRatioNextX96 ≠ sqrtRatio tickNext)
      (hmoved : step.sqrtRatioNextX96 ≠ s.sqrtPriceX96) (htick : getTickAtSqrtRatio step.sqrtRatioNextX96 = .ok tick) :
      Ending c s tickNext initialized step { c.account s step with tickCurrent := tick } false
  | stayed (hprice : step.sqrtRatioNextX96 ≠ sqrtRatio tickNext)
      (hstay : step.sqrtRatioNextX96 = s.sqrtPriceX96) :
      Ending c s tickNext initialized step (c.account s step) false

/-- Everything a round that returns can have done. -/
theorem round_cases (h : c.round s = .ok (s', stop)) :
    ∃ found initialized step, nextInitializedTick c.ticks s.tickCurrent c.zeroForOne c.tickSearch = .ok (found, initialized) ∧
      computeSwapStep s.sqrtPriceX96 (c.target (sqrtRatio (clampTick found))) s.liquidity s.amountSpecifiedRemaining
        c.fee = .ok step ∧
      ¬c.noProgress s (clampTick found) (sqrtRatio (clampTick found)) step ∧
      Ending c s (clampTick found) initialized step s' stop := by
  unfold round at h
  obtain ⟨⟨found, initialized⟩, hfound, h⟩ := bind_eq_ok.1 h
  change (getSqrtRatioAtTick (clampTick found) >>= _) = _ at h
  rw [getSqrtRatioAtTick_eq (clampTick_mem found), ok_bind] at h
  obtain ⟨step, hstep, h⟩ := bind_eq_ok.1 h
  refine ⟨found, initialized, step, hfound, hstep, ?_⟩
  change c.settle s (clampTick found) initialized _ step = _ at h
  unfold settle at h
  dsimp only at h
  split at h
  · cases h
  rename_i hprogress
  refine ⟨hprogress, ?_⟩
  split at h
  · rename_i hprice
    cases initialized with
    | true =>
      obtain ⟨liquidity, hliq, h⟩ := bind_eq_ok.1 h
      cases h
      exact .crossed liquidity hprice hliq
    | false =>
      cases h
      exact .crossed s.liquidity hprice rfl
  rename_i hprice
  split at h
  · rename_i hmoved
    obtain ⟨tick, htick, h⟩ := bind_eq_ok.1 h
    cases h
    exact .moved tick hprice hmoved htick
  · rename_i hstay
    cases h
    exact .stayed hprice (not_not.1 hstay)

/-! ## The types of the state -/

/-- A fee rate below one, and a limit that `v3_swap` accepts. -/
structure Accepted (c : SwapCall) : Prop where
  fee : c.fee < MAX_FEE
  limit : if c.zeroForOne then MIN_SQRT_RATIO < c.sqrtPriceLimitX96 ∧ c.sqrtPriceLimitX96 < 2 ^ 160
    else 0 < c.sqrtPriceLimitX96 ∧ c.sqrtPriceLimitX96 < MAX_SQRT_RATIO

/-- The state's words, and the sign of what remains. -/
structure Fits (c : SwapCall) (s : SwapState) : Prop where
  price : s.sqrtPriceX96 < 2 ^ 160
  liquidity : s.liquidity < 2 ^ 128
  remaining : c.Signed s.amountSpecifiedRemaining

/-- A limit that `v3_swap` accepts, and any rate, an exact input's being at most one. -/
structure Admitted (c : SwapCall) : Prop where
  fee : c.fee < 2 ^ 24
  rate : c.exactInput → c.fee ≤ MAX_FEE
  limit : if c.zeroForOne then MIN_SQRT_RATIO < c.sqrtPriceLimitX96 ∧ c.sqrtPriceLimitX96 < 2 ^ 160
    else 0 < c.sqrtPriceLimitX96 ∧ c.sqrtPriceLimitX96 < MAX_SQRT_RATIO

theorem Accepted.fee_lt (hc : Accepted c) : c.fee < 2 ^ 24 := hc.fee.trans (by decide)

theorem Accepted.admitted (hc : Accepted c) : Admitted c := ⟨hc.fee_lt, fun _ => hc.fee.le, hc.limit⟩

theorem Admitted.target_mem (hc : Admitted c) (found : Int) :
    0 < c.target (sqrtRatio (clampTick found)) ∧ c.target (sqrtRatio (clampTick found)) < 2 ^ 160 := by
  have hmem := sqrtRatio_mem (clampTick_mem found)
  have hlim := hc.limit
  unfold MIN_SQRT_RATIO MAX_SQRT_RATIO at *
  unfold target
  split at hlim <;> rename_i hz <;> simp only [hz, if_true, Bool.false_eq_true, if_false] <;> omega

theorem Accepted.target_mem (hc : Accepted c) (found : Int) :
    0 < c.target (sqrtRatio (clampTick found)) ∧ c.target (sqrtRatio (clampTick found)) < 2 ^ 160 :=
  hc.admitted.target_mem found

theorem target_eq_or (x : Nat) : c.target x = x ∨ c.target x = c.sqrtPriceLimitX96 := by
  unfold target
  split <;> omega

theorem addDelta_ok {x : Nat} {y : Int} {z : Nat} (h : addDelta x y = .ok z) : (z : Int) = x + y ∧ z < 2 ^ 128 := by
  unfold addDelta at h
  split at h
  · cases h; omega
  · cases h

/-- The liquidity a crossing leaves: the tick's net is added going up and taken off going down. -/
theorem crossTick_ok {liquidity z : Nat} {tick : Int} (h : c.crossTick liquidity tick = .ok z) :
    ∃ t, c.ticks[tick]? = some t ∧ z < 2 ^ 128 ∧
      (z : Int) = liquidity + if c.zeroForOne then -t.liquidityNet else t.liquidityNet := by
  unfold crossTick at h
  obtain ⟨t, ht, h⟩ := bind_eq_ok.1 h
  have hget : c.ticks[tick]? = some t := by
    unfold getTick at ht
    split at ht
    · rename_i hsome
      cases ht
      exact hsome
    · cases ht
  split at h
  · rename_i hz
    split at h
    · cases h
    · obtain ⟨hz', hlt⟩ := addDelta_ok h
      exact ⟨t, hget, hlt, by rw [if_pos hz]; exact hz'⟩
  · rename_i hz
    obtain ⟨hz', hlt⟩ := addDelta_ok h
    exact ⟨t, hget, hlt, by rw [if_neg hz]; exact hz'⟩

theorem Ending.state {tickNext : Int} {initialized : Bool} {step : SwapStep}
    (h : Ending c s tickNext initialized step s' stop) :
    s'.sqrtPriceX96 = step.sqrtRatioNextX96 ∧
      s'.amountSpecifiedRemaining = (c.account s step).amountSpecifiedRemaining ∧
      s'.amountCalculated = (c.account s step).amountCalculated := by
  cases h <;> exact ⟨account_price step, rfl, rfl⟩

theorem Ending.liquidity_lt {tickNext : Int} {initialized : Bool} {step : SwapStep}
    (h : Ending c s tickNext initialized step s' stop) (hl : s.liquidity < 2 ^ 128) : s'.liquidity < 2 ^ 128 := by
  cases h with
  | crossed liquidity hprice hliq =>
    cases initialized with
    | true =>
      obtain ⟨t, -, hlt, -⟩ := crossTick_ok (by simpa using hliq)
      exact hlt
    | false => rw [show liquidity = s.liquidity by simpa using hliq]; exact hl
  | moved tick hprice hmoved htick => exact (account_liquidity step).symm ▸ hl
  | stayed hprice hstay => exact (account_liquidity step).symm ▸ hl

/-- What a round of a typed state does, its step included. -/
theorem round_ok (hc : Accepted c) (hs : Fits c s) (hgo : c.goesOn s) (h : c.round s = .ok (s', stop)) :
    ∃ found initialized step, nextInitializedTick c.ticks s.tickCurrent c.zeroForOne c.tickSearch = .ok (found, initialized) ∧
      computeSwapStep s.sqrtPriceX96 (c.target (sqrtRatio (clampTick found))) s.liquidity s.amountSpecifiedRemaining
        c.fee = .ok step ∧
      0 < s.sqrtPriceX96 ∧
      StepOk (s.sqrtPriceX96 ≥ c.target (sqrtRatio (clampTick found))) s.sqrtPriceX96
        (c.target (sqrtRatio (clampTick found))) s.liquidity c.fee s.amountSpecifiedRemaining step ∧
      ¬c.noProgress s (clampTick found) (sqrtRatio (clampTick found)) step ∧
      Ending c s (clampTick found) initialized step s' stop ∧ Fits c s' := by
  obtain ⟨found, initialized, step, hfound, hstep, hprogress, hend⟩ := round_cases h
  obtain ⟨ht0, ht⟩ := hc.target_mem found
  have hp0 := computeSwapStep_pos ht0 hstep
  have hok := computeSwapStep_ok hp0 hs.price ht0 ht hs.liquidity hc.fee hs.remaining.mem hstep
  refine ⟨found, initialized, step, hfound, hstep, hp0, hok, hprogress, hend, ?_, hend.liquidity_lt hs.liquidity, ?_⟩
  · have hmem := onSide_mem hok.onSide hok.notPast
    have := hs.price
    rw [hend.state.1]
    omega
  · rw [hend.state.2.1]
    exact (account_remaining hs.remaining hgo.1 hok).2.1

/-- A round that does not reach its tick's price is the last. -/
theorem round_short {down : Bool} {found : Int} {initialized : Bool} {step : SwapStep} (hs : Fits c s) (hgo : c.goesOn s)
    (hok : StepMoves down s.sqrtPriceX96 (c.target (sqrtRatio (clampTick found))) s.amountSpecifiedRemaining step)
    (hend : Ending c s (clampTick found) initialized step s' stop)
    (hshort : step.sqrtRatioNextX96 ≠ sqrtRatio (clampTick found)) : ¬c.goesOn s' := by
  obtain ⟨hprice, hrem, -⟩ := hend.state
  rintro ⟨hne, hlim⟩
  rw [hrem] at hne
  rw [hprice] at hlim
  have htarget : step.sqrtRatioNextX96 = c.target (sqrtRatio (clampTick found)) := by
    by_contra hnt
    exact hne ((account_moves hs.remaining hgo.1 hok).2.2 hnt)
  rcases target_eq_or (c := c) (sqrtRatio (clampTick found)) with h | h
  · exact hshort (htarget.trans h)
  · exact hlim (htarget.trans h)

/-- A round that lets the loop go on has crossed its tick. -/
theorem round_crossed {found : Int} {initialized : Bool} {step : SwapStep} (hs : Fits c s) (hgo : c.goesOn s)
    (hok : StepMoves (s.sqrtPriceX96 ≥ c.target (sqrtRatio (clampTick found))) s.sqrtPriceX96
      (c.target (sqrtRatio (clampTick found))) s.amountSpecifiedRemaining step)
    (hend : Ending c s (clampTick found) initialized step s' stop) (hgo' : c.goesOn s') :
    step.sqrtRatioNextX96 = sqrtRatio (clampTick found) ∧
      s'.tickCurrent = if c.zeroForOne then clampTick found - 1 else clampTick found := by
  have hprice : step.sqrtRatioNextX96 = sqrtRatio (clampTick found) := by
    by_contra hshort
    exact round_short hs hgo hok hend hshort hgo'
  cases hend with
  | crossed liquidity _ _ => exact ⟨hprice, rfl⟩
  | moved tick hne _ _ => exact absurd hprice hne
  | stayed hne _ => exact absurd hprice hne

/-! ## The rounds of a run -/

/-- The states at the loop's head, or past its `break` when the flag is set. -/
inductive Reaches (c : SwapCall) (s₀ : SwapState) : SwapState → Bool → Prop
  | start : Reaches c s₀ s₀ false
  | round {s s' : SwapState} {stop : Bool} (h : Reaches c s₀ s false) (hgo : c.goesOn s) (hround : c.round s = .ok (s', stop)) :
      Reaches c s₀ s' stop

theorem loop_reaches : ∀ {fuel : Nat} {s : SwapState}, Reaches c s₀ s false → c.loop fuel s = .ok s' →
    ∃ stop, Reaches c s₀ s' stop ∧ (stop = true ∨ ¬c.goesOn s')
  | 0, _, _, h => by cases h
  | fuel + 1, s, hreach, h => by
    unfold loop at h
    split at h
    · rename_i hgo
      split at h
      · rename_i s₁ stop₁ hround
        split at h
        · rename_i hstop
          cases h
          exact ⟨true, hstop ▸ .round hreach hgo hround, .inl rfl⟩
        · rename_i hstop
          exact loop_reaches ((Bool.not_eq_true _ ▸ hstop) ▸ Reaches.round hreach hgo hround) h
      · cases h
    · rename_i hgo
      cases h
      exact ⟨false, hreach, .inr hgo⟩

/-- What every round keeps holds wherever the loop gets. -/
theorem Reaches.rule {I : SwapState → Bool → Prop} (h : Reaches c s₀ s stop) (h0 : I s₀ false)
    (hstep : ∀ s s' stop, I s false → c.goesOn s → c.round s = .ok (s', stop) → I s' stop) : I s stop := by
  induction h with
  | start => exact h0
  | round _ hgo hround ih => exact hstep _ _ _ ih hgo hround

/-- A run that returned has no round left to do. -/
theorem loop_ok {fuel : Nat} {I : SwapState → Bool → Prop} (h : c.loop fuel s₀ = .ok s) (h0 : I s₀ false)
    (hstep : ∀ s s' stop, I s false → c.goesOn s → c.round s = .ok (s', stop) → I s' stop) :
    ∃ stop, I s stop ∧ (stop = true ∨ ¬c.goesOn s) := by
  obtain ⟨stop, hreach, hend⟩ := loop_reaches .start h
  exact ⟨stop, hreach.rule h0 hstep, hend⟩

/-! ## The steps of a run -/

/-- The step a round at `s` takes. -/
def Takes (c : SwapCall) (s : SwapState) (step : SwapStep) : Prop :=
  ∃ found initialized, nextInitializedTick c.ticks s.tickCurrent c.zeroForOne c.tickSearch = .ok (found, initialized) ∧
    computeSwapStep s.sqrtPriceX96 (c.target (sqrtRatio (clampTick found))) s.liquidity s.amountSpecifiedRemaining
      c.fee = .ok step

/-- The steps from the start of a run on, each with the state it was taken in. -/
inductive Steps (c : SwapCall) (s₀ : SwapState) : List (SwapState × SwapStep) → SwapState → Bool → Prop
  | start : Steps c s₀ [] s₀ false
  | round {l : List (SwapState × SwapStep)} {s s' : SwapState} {stop : Bool} {step : SwapStep}
      (h : Steps c s₀ l s false) (hgo : c.goesOn s) (htakes : c.Takes s step) (hround : c.round s = .ok (s', stop)) :
      Steps c s₀ (l ++ [(s, step)]) s' stop

theorem Reaches.steps (h : Reaches c s₀ s stop) : ∃ l, Steps c s₀ l s stop := by
  induction h with
  | start => exact ⟨[], .start⟩
  | round _ hgo hround ih =>
    obtain ⟨l, hl⟩ := ih
    obtain ⟨found, initialized, step, hfound, hstep, -⟩ := round_cases hround
    exact ⟨_, .round hl hgo ⟨found, initialized, hfound, hstep⟩ hround⟩

/-- What the steps took in, fees included. -/
def consumed (l : List (SwapState × SwapStep)) : Nat := (l.map fun e => e.2.amountIn + e.2.feeAmount).sum

/-- What the steps gave out. -/
def delivered (l : List (SwapState × SwapStep)) : Nat := (l.map fun e => e.2.amountOut).sum

theorem checkLimit_ok {price : Nat} : c.checkLimit price = .ok () ↔
    if c.zeroForOne then MIN_SQRT_RATIO < c.sqrtPriceLimitX96 ∧ c.sqrtPriceLimitX96 < price
    else c.sqrtPriceLimitX96 < MAX_SQRT_RATIO ∧ price < c.sqrtPriceLimitX96 := by
  unfold checkLimit
  split <;> split <;> [simp_all; skip; simp_all; skip] <;> split <;> simp_all

theorem admitted_of_checkLimit {price : Nat} (hfee : c.fee < 2 ^ 24) (hrate : c.exactInput → c.fee ≤ MAX_FEE)
    (hp : price < 2 ^ 160) (h : c.checkLimit price = .ok ()) : Admitted c := by
  have hlim := checkLimit_ok.1 h
  refine ⟨hfee, hrate, ?_⟩
  split at hlim <;> rename_i hz <;> simp only [hz, if_true, Bool.false_eq_true, if_false] <;> omega

theorem accepted_of_checkLimit {price : Nat} (hfee : c.fee < MAX_FEE) (hp : price < 2 ^ 160)
    (h : c.checkLimit price = .ok ()) : Accepted c :=
  ⟨hfee, (admitted_of_checkLimit (hfee.trans (by decide)) (fun _ => hfee.le) hp h).limit⟩

/-- The call `v3_swap` makes of its loop, and the state it starts in. -/
theorem v3Swap_ok {fuel fee price : Nat} {tick : Int} {liquidity : Nat} {ticks : TickMap} {search : TickSearch}
    {zeroForOne : Bool} {amount : Int} {limit : Option Nat}
    (h : v3Swap fuel fee price tick liquidity ticks search zeroForOne amount limit = .ok s) :
    ∃ c : SwapCall, c = ⟨fee, ticks, search, zeroForOne,
        limit.getD (if zeroForOne then MIN_SQRT_RATIO + 1 else MAX_SQRT_RATIO - 1), decide (amount ≥ 0)⟩ ∧
      c.checkLimit price = .ok () ∧ c.loop fuel ⟨amount, 0, price, tick, liquidity⟩ = .ok s := by
  obtain ⟨_, hcheck, hloop⟩ := bind_eq_ok.1 h
  exact ⟨_, rfl, hcheck, hloop⟩

/-- The start of a run has the types of the arguments. -/
theorem fits_start {fee price liquidity limit : Nat} {tick amount : Int} {ticks : TickMap} {search : TickSearch}
    {zeroForOne : Bool} (hp : price < 2 ^ 160) (hl : liquidity < 2 ^ 128) (ha : -2 ^ 255 ≤ amount ∧ amount < 2 ^ 255) :
    Fits ⟨fee, ticks, search, zeroForOne, limit, decide (amount ≥ 0)⟩ ⟨amount, 0, price, tick, liquidity⟩ := by
  refine ⟨hp, hl, ?_⟩
  unfold Signed
  by_cases h : amount ≥ 0
  · rw [if_pos (decide_eq_true h)]
    exact ⟨h, ha.2⟩
  · rw [if_neg (by simpa using h)]
    exact ⟨ha.1, by dsimp only; omega⟩

end EvmDexPool.V3.SwapCall

import EvmDexPool.V3.RangeCosts
import EvmDexPool.V3.SwapLoop

/-!
# The V3 swap loop ends

Whatever the state says, a round that lets the loop go on has crossed a tick: downwards the tick
falls, upwards it rises, or it stays where the search fell back to it and the price comes to rest on
it. The second such round fails.

A call comes back with an `Ok` or an `Err` but where it negates a number that has no negative: the amount
`I256::MIN`, and the net `i128::MIN` of a tick that a run down crosses (`v3Swap_returns_iff`). Which ticks it
crosses is a matter of what the ranges on the way down take, one after the other (`WayDown`).
-/

namespace EvmDexPool.V3

/-! ## Only the loop can run out of rounds -/

/-- The call ends by itself. -/
def Ends {α : Type} (x : Except Fault α) : Prop := x ≠ .error .diverges

theorem ends_ok {α : Type} (a : α) : Ends (.ok a) := nofun
theorem ends_overflow {α : Type} : Ends (.error .overflow : Except Fault α) := nofun

theorem ends_ite {α : Type} {p : Prop} [Decidable p] {x y : Except Fault α} (hx : Ends x) (hy : Ends y) :
    Ends (if p then x else y) := by
  split
  · exact hx
  · exact hy

theorem ends_ite_of {α : Type} {p : Prop} [Decidable p] {x y : Except Fault α} (hx : p → Ends x) (hy : ¬p → Ends y) :
    Ends (if p then x else y) := by
  split
  · exact hx ‹_›
  · exact hy ‹_›

theorem ends_of_returns {α : Type} {x : Except Fault α} (h : Returns x) : Ends x := by
  rintro rfl
  exact h

/-! ## A round that comes back -/

theorem getTick_returns (m : TickMap) (tick : Int) : Returns (getTick m tick) := by
  unfold getTick; split
  · exact returns_ok _
  · exact returns_msg _

theorem getTick_ok {m : TickMap} {tick : Int} {t : Tick} (h : getTick m tick = .ok t) : m[tick]? = some t := by
  unfold getTick at h
  split at h
  · rename_i hsome
    cases h
    exact hsome
  · cases h

theorem addDelta_returns (x : Nat) (y : Int) : Returns (addDelta x y) := by
  by_cases h : 0 ≤ x + y ∧ x + y < 2 ^ 128
  · rw [addDelta, if_pos h]
    exact returns_ok _
  · rw [addDelta, if_neg h]
    exact returns_msg _

/-- Out of bounds a price has no tick. -/
theorem getTickAtSqrtRatio_cases {x : Nat} (hx : x < 2 ^ 160) :
    (∃ tick, getTickAtSqrtRatio x = .ok tick) ∨ ∃ m, getTickAtSqrtRatio x = .error (.error m) := by
  by_cases hmem : MIN_SQRT_RATIO ≤ x ∧ x < MAX_SQRT_RATIO
  · exact .inl (getTickAtSqrtRatio_ok hmem.1 hmem.2)
  · have hout : Fixed.wsub 160 x MIN_SQRT_RATIO > MAX_MINUS_MIN_MINUS_ONE := by
      unfold Fixed.wsub MAX_MINUS_MIN_MINUS_ONE
      unfold MIN_SQRT_RATIO MAX_SQRT_RATIO at *
      omega
    exact .inr ⟨_, if_pos hout⟩

namespace SwapCall

variable {c : SwapCall} {s s' s₀ : SwapState} {stop : Bool}

/-- The round crosses downwards a tick whose net has no negative. -/
def CrossesMin (c : SwapCall) (s : SwapState) : Prop :=
  c.zeroForOne = true ∧ ∃ found t step, nextInitializedTick c.ticks s.tickCurrent true c.tickSearch = .ok (found, true) ∧
    computeSwapStep s.sqrtPriceX96 (c.target (sqrtRatio (clampTick found))) s.liquidity s.amountSpecifiedRemaining
      c.fee = .ok step ∧
    step.sqrtRatioNextX96 = sqrtRatio (clampTick found) ∧ c.ticks[clampTick found]? = some t ∧ t.liquidityNet = -2 ^ 127

theorem crossTick_returns {liquidity : Nat} {tick : Int}
    (h : ∀ t, c.zeroForOne = true → c.ticks[tick]? = some t → t.liquidityNet ≠ -2 ^ 127) : Returns (c.crossTick liquidity tick) := by
  unfold crossTick
  refine returns_bind (getTick_returns _ _) fun t ht => ?_
  split
  · rename_i hz
    rw [if_neg (h t hz (getTick_ok ht))]
    exact addDelta_returns _ _
  · exact addDelta_returns _ _

theorem Admitted.rate_of (hc : Admitted c) (hs : Fits c s) (hgo : c.goesOn s) (h : 0 ≤ s.amountSpecifiedRemaining) :
    c.fee ≤ MAX_FEE := by
  by_contra hfee
  have := hs.remaining.neg hgo.1 (mt hc.rate hfee)
  omega

/-- A round comes back, unless it crosses such a tick. -/
theorem round_returns (hc : Admitted c) (hs : Fits c s) (hgo : c.goesOn s) (hmin : s.amountSpecifiedRemaining ≠ -2 ^ 255)
    (hcross : ¬c.CrossesMin s) : Returns (c.round s) := by
  have hsigned := hs.remaining.mem
  unfold round
  refine returns_bind (nextInitializedTick_returns _ _ _ _) fun ⟨found, initialized⟩ hfound => ?_
  change Returns (getSqrtRatioAtTick (clampTick found) >>= _)
  rw [getSqrtRatioAtTick_eq (clampTick_mem found), ok_bind]
  refine returns_bind (computeSwapStep_noFault hs.price hs.liquidity (hc.rate_of hs hgo) (by omega)) fun step hstep => ?_
  obtain ⟨ht0, ht⟩ := hc.target_mem found
  have hmoves := computeSwapStep_moves (computeSwapStep_pos ht0 hstep) hs.price ht0 ht hs.liquidity (hc.rate_of hs hgo)
    hsigned hstep
  have hnext : step.sqrtRatioNextX96 < 2 ^ 160 := by
    have hmem := onSide_mem hmoves.onSide hmoves.notPast
    have := hs.price
    omega
  change Returns (c.settle s (clampTick found) initialized _ step)
  unfold settle
  dsimp only
  split
  · exact returns_msg _
  split
  · rename_i hprice
    have hcrossed : Returns (if initialized = true then c.crossTick s.liquidity (clampTick found) else .ok s.liquidity) := by
      split
      · rename_i hinit
        subst hinit
        exact crossTick_returns fun t hz ht hnet => hcross ⟨hz, found, t, step, hz ▸ hfound, hstep, hprice, ht, hnet⟩
      · exact returns_ok _
    cases initialized with
    | true => exact returns_bind hcrossed fun _ _ => returns_ok _
    | false => exact returns_ok _
  have htick := getTickAtSqrtRatio_cases hnext
  generalize getTickAtSqrtRatio step.sqrtRatioNextX96 = tick at htick ⊢
  split
  · exact returns_bind (returns_iff.2 htick) fun _ _ => returns_ok _
  · exact returns_ok _

/-- The round that crosses such a tick negates its net. -/
theorem CrossesMin.round (hcross : c.CrossesMin s) : c.round s = .error .overflow := by
  obtain ⟨hz, found, t, step, hfound, hstep, hprice, ht, hnet⟩ := hcross
  unfold SwapCall.round
  rw [hz, hfound, ok_bind]
  change (getSqrtRatioAtTick (clampTick found) >>= _) = _
  rw [getSqrtRatioAtTick_eq (clampTick_mem found), ok_bind, hstep, ok_bind]
  change c.settle s (clampTick found) true _ step = _
  unfold settle
  dsimp only
  have hprogress : ¬c.noProgress s (clampTick found) (sqrtRatio (clampTick found)) step := by
    rintro ⟨-, -, -, hne | ⟨hz', -⟩⟩
    · exact hne hprice
    · exact hz' hz
  have hget : getTick c.ticks (clampTick found) = .ok t := by rw [getTick, ht]
  rw [if_neg hprogress, if_pos hprice, if_pos rfl, crossTick, hget, ok_bind, if_pos hz, if_pos hnet]
  rfl

/-- So is the least amount. -/
theorem round_min (hmin : s.amountSpecifiedRemaining = -2 ^ 255) {r : Int × Bool}
    (hfound : nextInitializedTick c.ticks s.tickCurrent c.zeroForOne c.tickSearch = .ok r) : c.round s = .error .overflow := by
  unfold SwapCall.round
  rw [hfound, ok_bind]
  change (getSqrtRatioAtTick (clampTick r.1) >>= _) = _
  rw [getSqrtRatioAtTick_eq (clampTick_mem r.1), ok_bind, computeSwapStep, if_neg (by omega), if_pos hmin]
  rfl

/-- Nothing else goes wrong in a round. -/
theorem round_outcome (hc : Admitted c) (hs : Fits c s) (hgo : c.goesOn s) :
    Returns (c.round s) ∨ c.round s = .error .overflow ∧ (c.CrossesMin s ∨ s.amountSpecifiedRemaining = -2 ^ 255) := by
  by_cases hcross : c.CrossesMin s
  · exact .inr ⟨hcross.round, .inl hcross⟩
  by_cases hmin : s.amountSpecifiedRemaining = -2 ^ 255
  · cases hfound : nextInitializedTick c.ticks s.tickCurrent c.zeroForOne c.tickSearch with
    | ok r => exact .inr ⟨round_min hmin hfound, .inr hmin⟩
    | error e =>
      refine .inl (returns_bind (nextInitializedTick_returns _ _ _ _) fun r hr => ?_)
      rw [hfound] at hr
      cases hr
  · exact .inl (round_returns hc hs hgo hmin hcross)

/-! ## Progress -/

/-- The price is not past the limit. -/
def WithinLimit (c : SwapCall) (s : SwapState) : Prop := OnSide c.zeroForOne s.sqrtPriceX96 c.sqrtPriceLimitX96

/-- What is left of a run: downwards the ticks below; upwards those above, and whether the price still
has to come to rest on the tick. -/
def rank (c : SwapCall) (s : SwapState) : Nat :=
  if c.zeroForOne then (s.tickCurrent - MIN_TICK).toNat
  else 2 * (MAX_TICK - s.tickCurrent).toNat + if s.sqrtPriceX96 = sqrtRatio (clampTick s.tickCurrent) then 0 else 1

theorem target_within (x : Nat) : OnSide c.zeroForOne (c.target x) c.sqrtPriceLimitX96 := by
  unfold target OnSide
  split
  · exact le_max_right _ _
  · exact min_le_right _ _

/-- What a round of a typed state does at every rate, its step included. -/
theorem round_moves (hc : Admitted c) (hs : Fits c s) (hgo : c.goesOn s) (h : c.round s = .ok (s', stop)) :
    ∃ found initialized step, nextInitializedTick c.ticks s.tickCurrent c.zeroForOne c.tickSearch = .ok (found, initialized) ∧
      computeSwapStep s.sqrtPriceX96 (c.target (sqrtRatio (clampTick found))) s.liquidity s.amountSpecifiedRemaining
        c.fee = .ok step ∧
      0 < s.sqrtPriceX96 ∧
      StepMoves (s.sqrtPriceX96 ≥ c.target (sqrtRatio (clampTick found))) s.sqrtPriceX96
        (c.target (sqrtRatio (clampTick found))) s.amountSpecifiedRemaining step ∧
      ¬c.noProgress s (clampTick found) (sqrtRatio (clampTick found)) step ∧
      Ending c s (clampTick found) initialized step s' stop ∧ Fits c s' := by
  obtain ⟨found, initialized, step, hfound, hstep, hprogress, hend⟩ := round_cases h
  obtain ⟨ht0, ht⟩ := hc.target_mem found
  have hp0 := computeSwapStep_pos ht0 hstep
  have hok := computeSwapStep_moves hp0 hs.price ht0 ht hs.liquidity (hc.rate_of hs hgo) hs.remaining.mem hstep
  refine ⟨found, initialized, step, hfound, hstep, hp0, hok, hprogress, hend, ?_, hend.liquidity_lt hs.liquidity, ?_⟩
  · have hmem := onSide_mem hok.onSide hok.notPast
    have := hs.price
    rw [hend.state.1]
    omega
  · rw [hend.state.2.1]
    exact (account_moves hs.remaining hgo.1 hok).2.1

/-- A round stays within the limit, and ranks below the last where the loop goes on. -/
theorem round_progress (hc : Admitted c) (hs : Fits c s) (hlim : WithinLimit c s) (hgo : c.goesOn s)
    (hround : c.round s = .ok (s', stop)) : Fits c s' ∧ WithinLimit c s' ∧ (c.goesOn s' → c.rank s' < c.rank s) := by
  obtain ⟨found, initialized, step, hfound, hstep, hp0, hok, hprogress, hend, hs'⟩ := round_moves hc hs hgo hround
  have hwithin := target_within (c := c) (sqrtRatio (clampTick found))
  have hmem := onSide_mem hok.onSide hok.notPast
  have hprice := hend.state.1
  have hlimit := hc.limit
  have hmin := sqrtRatio_min
  have hmax := sqrtRatio_max
  have hclamp := clampTick_mem found
  refine ⟨hs', ?_, fun hgo' => ?_⟩
  · unfold WithinLimit at hlim ⊢
    rw [hprice]
    unfold OnSide at *
    split at hlim <;> rename_i hz <;> simp only [hz, if_true, Bool.false_eq_true, if_false] at hwithin ⊢ <;> omega
  obtain ⟨hcross, htick⟩ := round_crossed hs hgo hok hend hgo'
  have hne := hgo'.2
  rw [hprice, hcross] at hne
  rw [hcross] at hmem
  unfold WithinLimit OnSide at hlim
  unfold OnSide at hwithin
  cases hz : c.zeroForOne with
  | true =>
    simp only [hz, if_true] at hlim hwithin hlimit htick
    rw [hz] at hfound
    have hle := (nextInitializedTick_down hfound).1
    have hpast : c.sqrtPriceLimitX96 ≤ sqrtRatio (clampTick found) := by omega
    have habove : clampTick found ≠ MIN_TICK := fun he => by rw [he, hmin] at hpast; omega
    have hfoundle : clampTick found ≤ found := by
      have hmax' : clampTick found = max MIN_TICK (min found MAX_TICK) := rfl
      omega
    clear hmem hwithin
    simp only [rank, hz, if_true, htick]
    omega
  | false =>
    simp only [hz, Bool.false_eq_true, if_false] at hlim hwithin hlimit htick
    rw [hz] at hfound
    have hpast : sqrtRatio (clampTick found) ≤ c.sqrtPriceLimitX96 := by omega
    have hbelow : clampTick found ≠ MAX_TICK := fun he => by rw [he, hmax] at hpast; omega
    have hfoundle : found ≤ clampTick found := by
      have hmax' : clampTick found = max MIN_TICK (min found MAX_TICK) := rfl
      omega
    clear hmem hwithin
    have hrest : s'.sqrtPriceX96 = sqrtRatio (clampTick s'.tickCurrent) := by
      rw [htick, clampTick_of_mem hclamp, hprice, hcross]
    have hrank' : c.rank s' = 2 * (MAX_TICK - clampTick found).toNat := by
      rw [rank, if_neg (by simp [hz]), if_pos hrest, htick, Nat.add_zero]
    rw [hrank']
    simp only [rank, hz, Bool.false_eq_true, if_false]
    rcases (nextInitializedTick_up hfound).1 with ⟨hlt, -⟩ | ⟨rfl, -⟩
    · omega
    by_cases hbounds : clampTick s.tickCurrent ≤ s.tickCurrent
    · -- the fallback at its own price would have been an empty step
      have hoff : s.sqrtPriceX96 ≠ sqrtRatio (clampTick s.tickCurrent) := by
        intro heq
        obtain ⟨ht0, ht⟩ := hc.target_mem s.tickCurrent
        have htarget : s.sqrtPriceX96 = c.target (sqrtRatio (clampTick s.tickCurrent)) := by
          rw [target, hz, if_neg Bool.false_ne_true, ← heq]
          exact (min_eq_left hlim).symm
        obtain ⟨-, hin, hout, hfee⟩ :=
          computeSwapStep_self hs.price ht0 ht hs.liquidity hc.fee htarget hstep
        exact hprogress ⟨hin, hout, hfee, .inr ⟨by simp [hz], hbounds⟩⟩
      rw [if_neg hoff]
      omega
    · omega

/-! ## The run -/

theorem ends_round (hc : Admitted c) (hs : Fits c s) (hgo : c.goesOn s) : Ends (c.round s) := by
  rcases round_outcome hc hs hgo with h | ⟨h, -⟩
  · exact ends_of_returns h
  · rw [h]
    exact ends_overflow

theorem loop_ends (hc : Admitted c) : ∀ {n : Nat} {s : SwapState}, Fits c s → WithinLimit c s → c.rank s < n →
    ∀ {fuel : Nat}, n < fuel → Ends (c.loop fuel s)
  | 0, _, _, _, hrank, _, _ => absurd hrank (Nat.not_lt_zero _)
  | n + 1, s, hs, hlim, hrank, 0, hfuel => absurd hfuel (Nat.not_lt_zero _)
  | n + 1, s, hs, hlim, hrank, fuel + 1, hfuel => by
    unfold loop
    refine ends_ite_of (fun hgo => ?_) fun _ => ends_ok _
    have hround := ends_round hc hs hgo
    cases hr : c.round s with
    | error e =>
      rw [hr] at hround
      exact fun h => hround (congrArg Except.error (Except.error.inj h))
    | ok r =>
      obtain ⟨s', stop⟩ := r
      obtain ⟨hs', hlim', hnext⟩ := round_progress hc hs hlim hgo hr
      refine ends_ite (ends_ok _) ?_
      by_cases hgo' : c.goesOn s'
      · exact loop_ends hc hs' hlim' (Nat.lt_of_lt_of_le (hnext hgo') (Nat.le_of_lt_succ hrank)) (by omega)
      · obtain ⟨k, rfl⟩ : ∃ k, fuel = k + 1 := ⟨fuel - 1, by omega⟩
        rw [loop, if_neg hgo']
        exact ends_ok _

/-- A result does not depend on the fuel left over. -/
theorem loop_fuel : ∀ {fuel : Nat} {s : SwapState}, Ends (c.loop fuel s) → ∀ {k : Nat}, fuel ≤ k → c.loop k s = c.loop fuel s
  | 0, _, h, _, _ => absurd rfl h
  | fuel + 1, s, h, 0, hk => absurd hk (Nat.not_succ_le_zero _)
  | fuel + 1, s, h, k + 1, hk => by
    unfold loop at h ⊢
    by_cases hgo : c.goesOn s
    · rw [if_pos hgo] at h ⊢
      rw [if_pos hgo]
      cases hr : c.round s with
      | error e => rfl
      | ok r =>
        obtain ⟨s', stop⟩ := r
        rw [hr] at h
        cases stop with
        | true => rfl
        | false => exact loop_fuel h (Nat.le_of_succ_le_succ hk)
    · rw [if_neg hgo, if_neg hgo]

theorem rank_lt (h : -2 ^ 23 ≤ s.tickCurrent ∧ s.tickCurrent < 2 ^ 23) : c.rank s < 2 ^ 25 - 1 := by
  unfold rank MIN_TICK MAX_TICK
  split
  · omega
  · split <;> omega

theorem withinLimit_of_checkLimit {price liquidity : Nat} {tick amount : Int} (h : c.checkLimit price = .ok ()) :
    WithinLimit c ⟨amount, 0, price, tick, liquidity⟩ := by
  have hlim := checkLimit_ok.1 h
  unfold WithinLimit OnSide
  split at hlim <;> rename_i hz <;> simp only [hz, if_true, Bool.false_eq_true, if_false]
  · exact hlim.2.le
  · exact hlim.2.le

end SwapCall

end EvmDexPool.V3

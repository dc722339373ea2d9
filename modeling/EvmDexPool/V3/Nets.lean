import EvmDexPool.V3.SwapDirection

/-!
# Well-formed V3 states

Every position adds its liquidity to the net of its lower tick and takes it off that of its upper one.
So in a well-formed state the liquidity in range is the sum of the nets up to the current tick, and the
nets of all ticks cancel out. A round that crosses a tick keeps this (`Consistent.round`), whichever
way it goes and whichever edge it stopped at; and it never turns around, since with nothing initialized
above there is nothing in range either.
-/

namespace EvmDexPool.V3

/-- The nets of the ticks up to a tick, added up. -/
def netsUpTo (m : TickMap) (tick : Int) : Int := Ranges.sumRange m (fun k => k ≤ tick) fun _ t => t.liquidityNet

/-- The nets of all ticks, added up. -/
def netsAll (m : TickMap) : Int := Ranges.sumRange m (fun _ => true) fun _ t => t.liquidityNet

section Nets
variable {m : TickMap} {a b : Int}

/-- Without a tick in between, the sum is the same. -/
theorem netsUpTo_congr (h : ∀ k v, m[k]? = some v → (k ≤ a ↔ k ≤ b)) : netsUpTo m a = netsUpTo m b :=
  Ranges.sumRange_congr fun k v hk => decide_eq_decide.2 (h k v hk)

theorem netsUpTo_tick {t : Tick} (h : m[a]? = some t) : netsUpTo m a = t.liquidityNet + netsUpTo m (a - 1) := by
  have hout : decide (a ≤ a - 1) = false := decide_eq_false (by omega)
  refine Ranges.sumRange_insert (f := fun _ t => t.liquidityNet) (p := fun k => decide (k ≤ a - 1)) h hout fun k _ _ => ?_
  show decide (k ≤ a) = true ↔ k = a ∨ decide (k ≤ a - 1) = true
  rw [decide_eq_true_iff, decide_eq_true_iff]
  omega

theorem netsUpTo_all (h : ∀ k v, m[k]? = some v → k ≤ a) : netsUpTo m a = netsAll m :=
  Ranges.sumRange_congr fun k v hk => decide_eq_true (h k v hk)

end Nets

/-- The tick map of a well-formed state: keys in bounds and on the spacing, and nets that cancel out. -/
structure TicksOk (m : TickMap) (tickSpacing : Int) : Prop where
  keys : ∀ k v, m[k]? = some v → (MIN_TICK ≤ k ∧ k ≤ MAX_TICK) ∧ tickSpacing ∣ k
  cancel : netsAll m = 0

theorem TicksOk.aligned {m : TickMap} {tickSpacing : Int} (h : TicksOk m tickSpacing) {search : TickSearch}
    (hsearch : search = .wordBounded tickSpacing ∨ search = .nextInitialized) : search.Aligned m := by
  rcases hsearch with rfl | rfl
  · exact fun k v hk => (h.keys k v hk).2
  · exact trivial

/-- A well-formed state: words of their types, the tick the floor tick of the price, and the liquidity
that the ticks up to it add up to. -/
structure WellFormed (price : Nat) (tick : Int) (liquidity : Nat) (m : TickMap) (tickSpacing : Int) : Prop where
  price_lt : price < 2 ^ 160
  liquidity_lt : liquidity < 2 ^ 128
  floor : FloorTick price tick
  ticks : TicksOk m tickSpacing
  liquidity_eq : (liquidity : Int) = netsUpTo m tick

theorem OnSide.trans {zeroForOne : Bool} {a b d : Nat} (h : OnSide zeroForOne a b) (h' : OnSide zeroForOne b d) :
    OnSide zeroForOne a d := by
  cases zeroForOne
  · exact le_trans h h'
  · exact le_trans h' h

namespace SwapCall

variable {c : SwapCall} {s s' s₀ : SwapState} {stop : Bool}

/-- The loop's invariant between two rounds: the price in the range of the tick, its upper end included,
and the liquidity of that range. -/
structure Consistent (c : SwapCall) (s : SwapState) : Prop where
  mem : MIN_TICK ≤ s.tickCurrent ∧ s.tickCurrent ≤ MAX_TICK
  low : sqrtRatio s.tickCurrent ≤ s.sqrtPriceX96
  high : s.tickCurrent < MAX_TICK → s.sqrtPriceX96 ≤ sqrtRatio (s.tickCurrent + 1)
  liquidity : (s.liquidity : Int) = netsUpTo c.ticks s.tickCurrent

/-- What the rounds only read, of a well-formed start. -/
structure Grounded (c : SwapCall) : Prop extends Accepted c where
  aligned : c.tickSearch.Aligned c.ticks
  keys : ∀ k v, c.ticks[k]? = some v → MIN_TICK ≤ k ∧ k ≤ MAX_TICK
  cancel : netsAll c.ticks = 0

/-- The price has not passed the limit. -/
def Within (c : SwapCall) (s : SwapState) : Prop := OnSide c.zeroForOne s.sqrtPriceX96 c.sqrtPriceLimitX96

/-! ## A round from a consistent state -/

/-- A step to where the price is has no direction. -/
theorem stepOk_turn {zeroForOne zeroForOne' : Bool} {price liquidity fee : Nat} {remaining : Int} {step : SwapStep}
    (hp0 : 0 < price) (h : StepOk zeroForOne price price liquidity fee remaining step) :
    StepOk zeroForOne' price price liquidity fee remaining step := by
  have hnext : step.sqrtRatioNextX96 = price := by
    have := onSide_mem h.onSide h.notPast
    omega
  have hpays : step.amountOut = 0 := by
    have hpay := h.pays
    rw [hnext, Pays, Nat.sub_self, Nat.mul_zero, Nat.mul_zero] at hpay
    split at hpay
    · omega
    · exact (Nat.mul_eq_zero.1 (Nat.le_zero.1 hpay)).resolve_right (Nat.mul_pos hp0 hp0).ne'
  refine ⟨hnext ▸ onSide_refl _ _, hnext ▸ onSide_refl _ _, ?_, ?_, h.feeCovers, h.exactIn, h.exactOut⟩
  · rw [hnext, Covers, Nat.sub_self, Nat.mul_zero, Nat.mul_zero]
    split <;> exact Nat.zero_le _
  · rw [hnext, hpays, Pays, Nat.zero_mul, Nat.zero_mul]
    split <;> exact Nat.zero_le _

/-- A step towards a target on the swap's side is a step in the swap's direction. -/
theorem stepOk_onSide {zeroForOne : Bool} {price target liquidity fee : Nat} {remaining : Int} {step : SwapStep}
    (hp0 : 0 < price) (hside : OnSide zeroForOne price target)
    (h : StepOk (price ≥ target) price target liquidity fee remaining step) :
    StepOk zeroForOne price target liquidity fee remaining step := by
  cases zeroForOne with
  | true =>
    have hge : price ≥ target := hside
    rwa [decide_eq_true hge] at h
  | false =>
    have hle : price ≤ target := hside
    rcases hle.eq_or_lt with rfl | hlt
    · exact stepOk_turn hp0 h
    · rwa [decide_eq_false (Nat.not_le.2 hlt)] at h

/-- A round of a well-formed run, in the swap's direction. -/
structure Onward (c : SwapCall) (s s' : SwapState) (stop : Bool) (found : Int) (initialized : Bool) (step : SwapStep) :
    Prop where
  search : nextInitializedTick c.ticks s.tickCurrent c.zeroForOne c.tickSearch = .ok (found, initialized)
  swapStep : computeSwapStep s.sqrtPriceX96 (c.target (sqrtRatio (clampTick found))) s.liquidity
    s.amountSpecifiedRemaining c.fee = .ok step
  pos : 0 < s.sqrtPriceX96
  above : c.zeroForOne = false → s.tickCurrent < found
  side : OnSide c.zeroForOne s.sqrtPriceX96 (c.target (sqrtRatio (clampTick found)))
  ok : StepOk c.zeroForOne s.sqrtPriceX96 (c.target (sqrtRatio (clampTick found))) s.liquidity c.fee
    s.amountSpecifiedRemaining step
  ending : Ending c s (clampTick found) initialized step s' stop
  fits : Fits c s'

theorem target_onSide_limit (c : SwapCall) (x : Nat) : OnSide c.zeroForOne (c.target x) c.sqrtPriceLimitX96 := by
  unfold OnSide target
  split
  · exact le_max_right _ _
  · exact min_le_right _ _

theorem target_onSide (c : SwapCall) (x : Nat) : OnSide c.zeroForOne (c.target x) x := by
  unfold OnSide target
  split
  · exact le_max_left _ _
  · exact min_le_left _ _

/-- With nothing initialized above there is nothing in range. -/
theorem Consistent.none_above (hg : Grounded c) (h : Consistent c s) (hnone : NoneAbove c s) : s.liquidity = 0 := by
  have hsum := h.liquidity
  rw [netsUpTo_all hnone.2, hg.cancel] at hsum
  exact_mod_cast hsum

/-- **A round goes the swap's way.** -/
theorem Consistent.onward (hg : Grounded c) (hs : Fits c s) (h : Consistent c s) (hw : Within c s) (hgo : c.goesOn s)
    (hround : c.round s = .ok (s', stop)) : ∃ found initialized step, Onward c s s' stop found initialized step := by
  obtain ⟨found, initialized, step, hfound, hstep, hp0, hok, hprogress, hend, hs'⟩ := round_ok hg.toAccepted hs hgo hround
  refine ⟨found, initialized, step, ?_⟩
  have hlimit := hg.limit
  have hmem := h.mem
  unfold Within OnSide at hw
  cases hz : c.zeroForOne with
  | true =>
    rw [if_pos hz] at hw
    have hfound' := hfound
    rw [hz] at hfound'
    have hle := sqrtRatio_clamp_mono (nextInitializedTick_down hfound').1
    rw [clampTick_of_mem h.mem] at hle
    have hside : OnSide c.zeroForOne s.sqrtPriceX96 (c.target (sqrtRatio (clampTick found))) := by
      have := h.low
      unfold OnSide target
      rw [if_pos hz, if_pos hz]
      omega
    exact ⟨hfound, hstep, hp0, fun hf => absurd (hz.symm.trans hf) (by decide), hside, stepOk_onSide hp0 hside hok, hend, hs'⟩
  | false =>
    rw [hz] at hw hlimit
    simp only [Bool.false_eq_true, if_false] at hw hlimit
    have hfound' := hfound
    rw [hz] at hfound'
    rcases (nextInitializedTick_up hfound').1 with ⟨hlt, -⟩ | ⟨rfl, -, hsearch, hall⟩
    · have hne : s.tickCurrent ≠ MAX_TICK := fun he => by
        have hlow := h.low
        rw [he, sqrtRatio_max] at hlow
        omega
      have hprice := target_above hz ⟨hmem.1, by omega⟩ hlt (h.high (by omega)) (by have := hgo.2; omega)
      have hside : OnSide c.zeroForOne s.sqrtPriceX96 (c.target (sqrtRatio (clampTick found))) := by
        rw [hz]
        exact hprice
      exact ⟨hfound, hstep, hp0, fun _ => hlt, hside, stepOk_onSide hp0 hside hok, hend, hs'⟩
    · -- nothing above, so nothing in range: the empty step fails
      have hl0 := h.none_above hg ⟨hsearch, hall⟩
      obtain ⟨ht0, ht⟩ := hg.target_mem s.tickCurrent
      obtain ⟨-, hin, hout, hfee⟩ :=
        computeSwapStep_noLiquidity hs.price ht0 ht hs.liquidity hg.fee_lt hl0 hstep
      refine absurd ⟨hin, hout, hfee, .inr ⟨by simp [hz], ?_⟩⟩ hprogress
      rw [clampTick_of_mem hmem]

variable {found : Int} {initialized : Bool} {step : SwapStep}

theorem Onward.within (h : Onward c s s' stop found initialized step) : Within c s' := by
  unfold Within
  rw [h.ending.state.1]
  exact h.ok.notPast.trans (target_onSide_limit c _)

/-- The liquidity past a tick, as the nets have it. -/
theorem crossed_liquidity {liquidity : Nat} (hinit : initialized = true ↔ ∃ v, c.ticks[found]? = some v)
    (hl : (s.liquidity : Int) = if c.zeroForOne then netsUpTo c.ticks found else netsUpTo c.ticks (found - 1))
    (hliq : if initialized then c.crossTick s.liquidity found = .ok liquidity else liquidity = s.liquidity) :
    (liquidity : Int) = if c.zeroForOne then netsUpTo c.ticks (found - 1) else netsUpTo c.ticks found := by
  cases initialized with
  | true =>
    obtain ⟨t, ht, -, hsum⟩ := crossTick_ok (by simpa using hliq)
    have hnet := netsUpTo_tick ht
    split at hl <;> rename_i hz <;> simp only [hz, if_true, Bool.false_eq_true, if_false] at hsum ⊢ <;> omega
  | false =>
    have hsame : netsUpTo c.ticks found = netsUpTo c.ticks (found - 1) := netsUpTo_congr fun k v hk => by
      have : k ≠ found := fun he => Bool.false_ne_true (hinit.2 ⟨v, he ▸ hk⟩)
      omega
    rw [show liquidity = s.liquidity by simpa using hliq, hl, hsame]

/-- **A round that crosses its tick leaves a consistent state.** -/
theorem Onward.crossed (hg : Grounded c) (hc : Consistent c s) (h : Onward c s s' stop found initialized step)
    (hprice : step.sqrtRatioNextX96 = sqrtRatio (clampTick found)) :
    found = clampTick found ∧ Consistent c s' ∧ s'.sqrtPriceX96 = sqrtRatio found ∧
      s'.tickCurrent = (if c.zeroForOne then found - 1 else found) ∧ stop = decide (s'.liquidity = 0) ∧
      (c.zeroForOne = true → MIN_TICK < found ∧ found ≤ s.tickCurrent) ∧ (c.zeroForOne = false → found < MAX_TICK) := by
  have hlimit := hg.limit
  have hnot := h.ok.notPast.trans (target_onSide_limit c _)
  have hsearch := h.search
  have hmem := hc.mem
  have hmin := sqrtRatio_min
  have hmax := sqrtRatio_max
  have hclamp := clampTick_mem found
  rw [hprice] at hnot
  have hend := h.ending
  have hab := h.above
  cases hend with
  | moved tick hne _ _ => exact absurd hprice hne
  | stayed hne _ => exact absurd hprice hne
  | crossed liquidity _ hliq =>
  cases hz : c.zeroForOne with
  | true =>
    rw [hz] at hsearch hnot hlimit
    obtain ⟨hle, hinit, hpass⟩ := nextInitializedTick_down hsearch
    have hne : clampTick found ≠ MIN_TICK := fun he => by
      have hnot : c.sqrtPriceLimitX96 ≤ sqrtRatio (clampTick found) := hnot
      rw [he] at hnot
      simp only [if_true] at hlimit
      omega
    have heq : clampTick found = found := by unfold clampTick MIN_TICK MAX_TICK at *; omega
    rw [heq] at hprice hliq hne hclamp ⊢
    have hsame : (s.liquidity : Int) = netsUpTo c.ticks found := hc.liquidity.trans <|
      netsUpTo_congr fun k v hk => ⟨hpass hg.aligned k v hk, fun hk => hk.trans hle⟩
    have hnew := crossed_liquidity hinit (by rw [if_pos hz]; exact hsame) hliq
    rw [if_pos hz] at hnew
    simp only [if_true, account_price, hprice]
    refine ⟨trivial, ⟨?_, ?_, ?_, hnew⟩, trivial, trivial, trivial, fun _ => ⟨by omega, hle⟩, nofun⟩
    · dsimp only; omega
    · dsimp only
      exact sqrtRatio_mono (by omega) (by omega) (by omega)
    · intro _
      dsimp only
      rw [Int.sub_add_cancel]
  | false =>
    rw [hz] at hsearch hnot hlimit
    have hlt := hab hz
    obtain ⟨⟨-, hinit, -⟩ | ⟨heq, -⟩, hpass⟩ := nextInitializedTick_up hsearch
    swap
    · omega
    have hne : clampTick found ≠ MAX_TICK := fun he => by
      have hnot : sqrtRatio (clampTick found) ≤ c.sqrtPriceLimitX96 := hnot
      rw [he] at hnot
      simp only [Bool.false_eq_true, if_false] at hlimit
      omega
    have heq : clampTick found = found := by unfold clampTick MIN_TICK MAX_TICK at *; omega
    rw [heq] at hprice hliq hne hclamp ⊢
    have hsame : (s.liquidity : Int) = netsUpTo c.ticks (found - 1) := hc.liquidity.trans <|
      netsUpTo_congr fun k v hk => ⟨fun hk => by omega, fun hk' => by
        by_contra hgt
        have := hpass hg.aligned k v hk (by omega)
        omega⟩
    have hnew := crossed_liquidity hinit (by rw [hz]; exact hsame) hliq
    rw [hz] at hnew
    simp only [Bool.false_eq_true, if_false] at hnew
    simp only [Bool.false_eq_true, if_false, account_price, hprice]
    refine ⟨trivial, ⟨hclamp, ?_, ?_, hnew⟩, trivial, trivial, trivial, nofun, fun _ => by omega⟩
    · exact le_rfl
    · intro hlt'
      dsimp only at hlt' ⊢
      exact sqrtRatio_mono (by omega) (by omega) (by omega)

/-! ## Over a run -/

/-- What every round of a well-formed run keeps. -/
structure Steady (c : SwapCall) (s : SwapState) : Prop where
  fits : Fits c s
  within : Within c s
  consistent : c.goesOn s → Consistent c s

theorem Steady.onward (hg : Grounded c) (h : Steady c s) (hgo : c.goesOn s) (hround : c.round s = .ok (s', stop)) :
    ∃ found initialized step, Onward c s s' stop found initialized step :=
  (h.consistent hgo).onward hg h.fits h.within hgo hround

/-- A round that falls short of its tick is the last. -/
theorem Onward.short (h : Onward c s s' stop found initialized step) (hs : Fits c s) (hgo : c.goesOn s)
    (hshort : step.sqrtRatioNextX96 ≠ sqrtRatio (clampTick found)) : ¬c.goesOn s' :=
  round_short hs hgo h.ok.moves h.ending hshort

theorem Onward.steady (hg : Grounded c) (hs : Steady c s) (hgo : c.goesOn s)
    (h : Onward c s s' stop found initialized step) : Steady c s' := by
  refine ⟨h.fits, h.within, fun hgo' => ?_⟩
  have hprice : step.sqrtRatioNextX96 = sqrtRatio (clampTick found) := by
    by_contra hshort
    exact h.short hs.fits hgo hshort hgo'
  exact (h.crossed hg (hs.consistent hgo) hprice).2.1

theorem Steady.reaches (hg : Grounded c) (h : Steady c s₀) (hreach : Reaches c s₀ s stop) : Steady c s :=
  hreach.rule (I := fun s _ => Steady c s) h fun _ _ _ hs hgo hround => by
    obtain ⟨_, _, _, ho⟩ := hs.onward hg hgo hround
    exact ho.steady hg hs hgo

/-- The start of a call from a well-formed state. -/
theorem steady_start {fee price liquidity : Nat} {tick tickSpacing : Int} {ticks : TickMap} {search : TickSearch}
    {zeroForOne : Bool} {amount : Int} {limit : Nat} (hwf : WellFormed price tick liquidity ticks tickSpacing)
    (hsearch : search = .wordBounded tickSpacing ∨ search = .nextInitialized) (hfee : fee < MAX_FEE)
    (ha : -2 ^ 255 ≤ amount ∧ amount < 2 ^ 255)
    (hcheck : checkLimit ⟨fee, ticks, search, zeroForOne, limit, decide (amount ≥ 0)⟩ price = .ok ()) :
    Grounded ⟨fee, ticks, search, zeroForOne, limit, decide (amount ≥ 0)⟩ ∧
      Steady ⟨fee, ticks, search, zeroForOne, limit, decide (amount ≥ 0)⟩ ⟨amount, 0, price, tick, liquidity⟩ := by
  have hlimit := checkLimit_ok.1 hcheck
  obtain ⟨hmem, hlow, hhigh⟩ := hwf.floor
  refine ⟨⟨accepted_of_checkLimit hfee hwf.price_lt hcheck, hwf.ticks.aligned hsearch, fun k v hk => (hwf.ticks.keys k v hk).1,
    hwf.ticks.cancel⟩, fits_start hwf.price_lt hwf.liquidity_lt ha, ?_, fun _ => ⟨hmem, hlow, fun h => (hhigh h).le, hwf.liquidity_eq⟩⟩
  cases zeroForOne
  · exact hlimit.2.le
  · exact hlimit.2.le

end SwapCall

end EvmDexPool.V3

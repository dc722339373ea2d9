import EvmDexPool.V3.Requote

/-!
# Stopping at word edges

The word-bounded search stops a swap at every edge of a bitmap word, the search of the linked list only at
initialized ticks. So one step of a list run is a trail of steps of a word run, each with its own roundings: the
trail takes in at least as much and gives at most as much as the step (`Trail`). An exact input therefore gets
the word run no further, and an exact output costs it no less (`wordEdges_cost`), but for one case: the list run
has its whole output just on the tick it goes for, and the word run has it at an edge before.
-/

namespace EvmDexPool.V3

open Fixed

/-! ## Moves one after the other -/

section Moves
variable {zeroForOne : Bool} {price middle stop liquidity a b : Nat}

/-- What covers two moves covers the whole. -/
theorem Covers.add (hm0 : 0 < middle) (hpm : OnSide zeroForOne price middle) (hms : OnSide zeroForOne middle stop)
    (h : Covers zeroForOne price middle liquidity a) (h' : Covers zeroForOne middle stop liquidity b) :
    Covers zeroForOne price stop liquidity (a + b) := by
  cases zeroForOne with
  | true =>
    have hpm : middle ≤ price := hpm
    have hms : stop ≤ middle := hms
    rw [Covers, if_pos rfl] at *
    generalize liquidity * 2 ^ 96 = N at *
    refine Nat.le_of_mul_le_mul_right ?_ hm0
    obtain ⟨d, rfl⟩ := Nat.exists_eq_add_of_le hms
    obtain ⟨e, rfl⟩ := Nat.exists_eq_add_of_le hpm
    rw [Nat.add_sub_cancel_left] at h h'
    rw [Nat.add_assoc, Nat.add_sub_cancel_left]
    have h1 := Nat.mul_le_mul_right stop h
    have h2 := Nat.mul_le_mul_right (stop + d + e) h'
    calc N * (d + e) * (stop + d) = N * e * stop + N * d * (stop + d + e) := by ring
      _ ≤ a * ((stop + d + e) * (stop + d)) * stop + b * ((stop + d) * stop) * (stop + d + e) := Nat.add_le_add h1 h2
      _ = (a + b) * ((stop + (d + e)) * stop) * (stop + d) := by ring
  | false =>
    have hpm : price ≤ middle := hpm
    have hms : middle ≤ stop := hms
    rw [Covers, if_neg Bool.false_ne_true] at *
    obtain ⟨d, rfl⟩ := Nat.exists_eq_add_of_le hpm
    obtain ⟨e, rfl⟩ := Nat.exists_eq_add_of_le hms
    rw [Nat.add_sub_cancel_left] at h h'
    rw [Nat.add_assoc, Nat.add_sub_cancel_left, Nat.mul_add, Nat.add_mul]
    exact Nat.add_le_add h h'

/-- What two moves pay the whole pays. -/
theorem Pays.add (hm0 : 0 < middle) (hpm : OnSide zeroForOne price middle) (hms : OnSide zeroForOne middle stop)
    (h : Pays zeroForOne price middle liquidity a) (h' : Pays zeroForOne middle stop liquidity b) :
    Pays zeroForOne price stop liquidity (a + b) := by
  cases zeroForOne with
  | true =>
    have hpm : middle ≤ price := hpm
    have hms : stop ≤ middle := hms
    rw [Pays, if_pos rfl] at *
    obtain ⟨d, rfl⟩ := Nat.exists_eq_add_of_le hms
    obtain ⟨e, rfl⟩ := Nat.exists_eq_add_of_le hpm
    rw [Nat.add_sub_cancel_left] at h h'
    rw [Nat.add_assoc, Nat.add_sub_cancel_left, Nat.mul_add, Nat.add_mul, Nat.add_comm (liquidity * d)]
    exact Nat.add_le_add h h'
  | false =>
    have hpm : price ≤ middle := hpm
    have hms : middle ≤ stop := hms
    rw [Pays, if_neg Bool.false_ne_true] at *
    generalize liquidity * 2 ^ 96 = N at *
    refine Nat.le_of_mul_le_mul_right ?_ hm0
    obtain ⟨d, rfl⟩ := Nat.exists_eq_add_of_le hpm
    obtain ⟨e, rfl⟩ := Nat.exists_eq_add_of_le hms
    rw [Nat.add_sub_cancel_left] at h h'
    rw [Nat.add_assoc, Nat.add_sub_cancel_left]
    have h1 := Nat.mul_le_mul_right (price + d + e) h
    have h2 := Nat.mul_le_mul_right price h'
    calc (a + b) * (price * (price + (d + e))) * (price + d) =
          a * (price * (price + d)) * (price + d + e) + b * ((price + d) * (price + d + e)) * price := by ring
      _ ≤ N * d * (price + d + e) + N * e * price := Nat.add_le_add h1 h2
      _ = N * (d + e) * (price + d) := by ring

/-- What covers a move covers a shorter one. -/
theorem Covers.nearer (hs0 : 0 < stop) (hpm : OnSide zeroForOne price middle) (hms : OnSide zeroForOne middle stop)
    (h : Covers zeroForOne price stop liquidity a) : Covers zeroForOne price middle liquidity a := by
  cases zeroForOne with
  | true =>
    have hpm : middle ≤ price := hpm
    have hms : stop ≤ middle := hms
    rw [Covers, if_pos rfl] at *
    generalize liquidity * 2 ^ 96 = N at *
    refine Nat.le_of_mul_le_mul_right ?_ hs0
    obtain ⟨d, rfl⟩ := Nat.exists_eq_add_of_le hms
    obtain ⟨e, rfl⟩ := Nat.exists_eq_add_of_le hpm
    rw [Nat.add_assoc, Nat.add_sub_cancel_left] at h
    rw [Nat.add_sub_cancel_left]
    have h1 := Nat.mul_le_mul_right (stop + d) h
    calc N * e * stop ≤ N * (d + e) * (stop + d) := Nat.mul_le_mul (Nat.mul_le_mul_left _ (by omega)) (by omega)
      _ ≤ a * ((stop + (d + e)) * stop) * (stop + d) := h1
      _ = a * ((stop + d + e) * (stop + d)) * stop := by ring
  | false =>
    have hms : middle ≤ stop := hms
    rw [Covers, if_neg Bool.false_ne_true] at *
    exact (Nat.mul_le_mul_left _ (by omega)).trans h

theorem Pays.less (h : Pays zeroForOne price stop liquidity a) (hab : b ≤ a) : Pays zeroForOne price stop liquidity b := by
  unfold Pays at *
  split at h
  · rw [if_pos ‹_›]
    exact (Nat.mul_le_mul_right _ hab).trans h
  · rw [if_neg ‹_›]
    exact (Nat.mul_le_mul_right _ hab).trans h

/-- The price that an output moves to is the nearest that pays it. -/
theorem nextFromOutput_nearest {next : Nat} (hp : price < 2 ^ 160) (hl : liquidity < 2 ^ 128) (ha : a < 2 ^ 255)
    (hside : OnSide zeroForOne price stop) (hpays : Pays zeroForOne price stop liquidity a)
    (h : getNextSqrtPriceFromOutput price liquidity a zeroForOne = .ok next) : OnSide zeroForOne next stop := by
  cases zeroForOne with
  | true => exact (getNextSqrtPriceFromOutput_down hl (ha.trans (by decide)) h).2.2 stop hside hpays
  | false => exact (getNextSqrtPriceFromOutput_up hl hp h).2.2 stop hside hpays

end Moves

/-! ## The amounts of a round -/

/-- The least input that covers a move, and the fee on it. -/
structure LeastIn (zeroForOne : Bool) (price stop liquidity fee : Nat) (step : SwapStep) : Prop where
  amountIn : ∀ k, step.amountIn ≤ k ↔ Covers zeroForOne price stop liquidity k
  feeAmount : ∀ k, step.feeAmount ≤ k ↔ step.amountIn * fee ≤ k * (MAX_FEE - fee)

/-- The greatest output that a move pays. -/
def MostOut (zeroForOne : Bool) (price stop liquidity : Nat) (step : SwapStep) : Prop :=
  ∀ k, k ≤ step.amountOut ↔ Pays zeroForOne price stop liquidity k

namespace SwapCall

variable {c w : SwapCall} {s s' s₀ u u' u₀ : SwapState} {stop stop' : Bool} {found found' : Int}
  {initialized initialized' : Bool} {step step' : SwapStep}

/-- A step to where the price is has no amounts, in either direction. -/
theorem leastIn_self {zeroForOne : Bool} {price liquidity fee : Nat} (hin : step.amountIn = 0) (hf : step.feeAmount = 0) :
    LeastIn zeroForOne price price liquidity fee step := by
  refine ⟨fun k => ?_, fun k => ?_⟩
  · rw [hin, Covers, Nat.sub_self, Nat.mul_zero, Nat.mul_zero]
    split <;> simp
  · rw [hin, hf, Nat.zero_mul]
    simp

theorem mostOut_self {zeroForOne : Bool} {price liquidity : Nat} (hp0 : 0 < price) (hout : step.amountOut = 0) :
    MostOut zeroForOne price price liquidity step := by
  intro k
  rw [hout, Nat.le_zero]
  refine ⟨?_, fun h => h.nothing hp0 hp0 ?_⟩
  · rintro rfl
    rw [Pays, Nat.zero_mul, Nat.zero_mul]
    split <;> exact Nat.zero_le _
  · rw [Covers, Nat.sub_self, Nat.mul_zero, Nat.mul_zero]
    split <;> exact Nat.zero_le _

/-- The direction that a round's step reads off its prices is the swap's, or the step is empty. -/
theorem Onward.direction (hg : Grounded c) (hs : Fits c s) (h : Onward c s s' stop found initialized step) :
    decide (s.sqrtPriceX96 ≥ c.target (sqrtRatio (clampTick found))) = c.zeroForOne ∨
      (s.sqrtPriceX96 = c.target (sqrtRatio (clampTick found)) ∧
        step.sqrtRatioNextX96 = c.target (sqrtRatio (clampTick found)) ∧ step.amountIn = 0 ∧ step.amountOut = 0 ∧
        step.feeAmount = 0) := by
  have hside := h.side
  obtain ⟨ht0, ht⟩ := hg.target_mem found
  cases hz : c.zeroForOne with
  | true =>
    rw [hz] at hside
    exact .inl (decide_eq_true hside)
  | false =>
    rw [hz] at hside
    have hle : s.sqrtPriceX96 ≤ c.target (sqrtRatio (clampTick found)) := hside
    rcases hle.eq_or_lt with heq | hlt
    · exact .inr ⟨heq, computeSwapStep_self hs.price ht0 ht hs.liquidity hg.fee_lt heq h.swapStep⟩
    · exact .inl (decide_eq_false (by omega))

/-- What an exact-input round does: at its target the least input, short of it all of the amount. -/
theorem Onward.spends (hg : Grounded c) (hin : c.exactInput) (hs : Fits c s) (h : Onward c s s' stop found initialized step) :
    MostOut c.zeroForOne s.sqrtPriceX96 step.sqrtRatioNextX96 s.liquidity step ∧
      (step.sqrtRatioNextX96 = c.target (sqrtRatio (clampTick found)) ∧
          LeastIn c.zeroForOne s.sqrtPriceX96 (c.target (sqrtRatio (clampTick found))) s.liquidity c.fee step ∨
        ¬Covers c.zeroForOne s.sqrtPriceX96 (c.target (sqrtRatio (clampTick found))) s.liquidity
            (lessFee s.amountSpecifiedRemaining.toNat c.fee) ∧
          getNextSqrtPriceFromInput s.sqrtPriceX96 s.liquidity (lessFee s.amountSpecifiedRemaining.toNat c.fee) c.zeroForOne =
            .ok step.sqrtRatioNextX96) := by
  obtain ⟨ht0, ht⟩ := hg.target_mem found
  have hmost := hs.remaining.mem
  have hmem := onSide_mem h.ok.onSide h.ok.notPast
  have hnext0 := h.next_pos hg
  have hprice := hs.price
  have hstep := h.swapStep
  rw [computeSwapStep_exactIn (hs.remaining.nonneg hin)] at hstep
  rcases h.direction hg hs with hdir | ⟨heq, hnext, hzin, hzout, hzf⟩
  · rw [hdir] at hstep
    obtain ⟨x, hx, hcovers⟩ := inputDelta_eq h.pos hprice ht0 ht hs.liquidity h.side
    obtain ⟨y, hy, hpays⟩ := outputDelta_eq h.pos hprice hnext0 (by omega) hs.liquidity h.ok.onSide
    rcases exactInStep_cases h.pos hprice ht0 ht hs.liquidity h.side hg.fee (by omega) hstep with
      ⟨hnext, -, hxin, hout, hf⟩ | ⟨hshort, hnext, hout, -⟩
    · cases hx.symm.trans hxin
      rw [← hnext] at hout
      cases hy.symm.trans hout
      refine ⟨hpays, .inl ⟨hnext, hcovers, fun k => ?_⟩⟩
      rw [hf, ceilDiv_le_iff (Nat.sub_pos_of_lt hg.fee), Nat.mul_comm k]
    · cases hy.symm.trans hout
      exact ⟨hpays, .inr ⟨hshort, hnext⟩⟩
  · rw [hnext, ← heq]
    exact ⟨mostOut_self h.pos hzout, .inl ⟨rfl, leastIn_self hzin hzf⟩⟩

/-- What an exact-output round does: the least input for where it ends, which is its target or the nearest price that
pays what is owed. -/
theorem Onward.gives (hg : Grounded c) (hout : ¬c.exactInput) (hs : Fits c s) (hgo : c.goesOn s)
    (h : Onward c s s' stop found initialized step) :
    LeastIn c.zeroForOne s.sqrtPriceX96 step.sqrtRatioNextX96 s.liquidity c.fee step ∧
      (step.sqrtRatioNextX96 = c.target (sqrtRatio (clampTick found)) ∧
          MostOut c.zeroForOne s.sqrtPriceX96 (c.target (sqrtRatio (clampTick found))) s.liquidity step ∨
        (step.amountOut : Int) = -s.amountSpecifiedRemaining ∧
          ∀ q, OnSide c.zeroForOne s.sqrtPriceX96 q →
            Pays c.zeroForOne s.sqrtPriceX96 q s.liquidity (-s.amountSpecifiedRemaining).toNat →
            OnSide c.zeroForOne step.sqrtRatioNextX96 q) := by
  obtain ⟨ht0, ht⟩ := hg.target_mem found
  have hneg := hs.remaining.neg hgo.1 hout
  have hlow := hs.remaining.mem.1
  have hmin := computeSwapStep_not_min hneg h.swapStep
  have hmem := onSide_mem h.ok.onSide h.ok.notPast
  have hnext0 := h.next_pos hg
  have hprice := hs.price
  have hfee : c.fee < 1000000 := hg.fee
  have hstep := computeSwapStep_exactOut hneg h.swapStep
  rcases h.direction hg hs with hdir | ⟨heq, hnext, hzin, hzout, hzf⟩
  · rw [hdir] at hstep
    obtain ⟨x, hx, hcovers⟩ := inputDelta_eq h.pos hprice hnext0 (by omega) hs.liquidity h.ok.onSide
    obtain ⟨next, rfl, hxin, hf, hcase⟩ := exactOutStep_cases h.pos hprice ht0 ht hs.liquidity h.side hstep
    cases hx.symm.trans hxin
    have hxlt := inputDelta_lt h.pos hprice hnext0 (by omega) hs.liquidity h.ok.onSide hxin
    rw [feeComplement_eq hg.fee] at hf
    obtain ⟨hc, -, hceil⟩ := mulDivRoundingUp_ok (by omega) (by omega) (by unfold MAX_FEE; omega) hf
    refine ⟨⟨hcovers, fun k => ?_⟩, ?_⟩
    · rw [hceil, ceilDiv_le_iff hc, Nat.mul_comm k]
    rcases hcase with ⟨hnext, -, hy⟩ | ⟨-, hall, hnext⟩
    · obtain ⟨y, hy', hpays⟩ := outputDelta_eq h.pos hprice ht0 ht hs.liquidity h.side
      cases hy.symm.trans hy'
      exact .inl ⟨hnext, hpays⟩
    · refine .inr ⟨by omega, fun q hq hpay => nextFromOutput_nearest hprice hs.liquidity (by omega) hq hpay hnext⟩
  · rw [hnext, ← heq]
    exact ⟨leastIn_self hzin hzf, .inl ⟨rfl, mostOut_self h.pos hzout⟩⟩

/-! ## A trail -/

/-- A way from `s` to the price `q`, not past the tick `found`, that took in `i`, a fee of `f` and gave out `o`. -/
structure Trail (c : SwapCall) (s : SwapState) (found : Int) (q i f o : Nat) : Prop where
  onSide : OnSide c.zeroForOne s.sqrtPriceX96 q
  notPast : OnSide c.zeroForOne q (c.target (sqrtRatio (clampTick found)))
  covers : Covers c.zeroForOne s.sqrtPriceX96 q s.liquidity i
  pays : Pays c.zeroForOne s.sqrtPriceX96 q s.liquidity o
  fee : i * c.fee ≤ f * (MAX_FEE - c.fee)

/-- The initialized tick that a run goes for. -/
structure Heading (w : SwapCall) (u : SwapState) (found : Int) : Prop where
  key : ∃ v, w.ticks[found]? = some v
  ahead : if w.zeroForOne then found ≤ u.tickCurrent else u.tickCurrent < found
  first : ∀ k v, w.ticks[k]? = some v → if w.zeroForOne then k ≤ u.tickCurrent → k ≤ found else u.tickCurrent < k → found ≤ k

/-- The list's search that finds nothing has nothing ahead. -/
theorem nextInitializedTick_none {m : TickMap} {tick t : Int} {lte : Bool}
    (h : nextInitializedTick m tick lte .nextInitialized = .ok (t, false)) :
    ∀ k v, m[k]? = some v → if lte then tick < k else k ≤ tick := by
  intro k v hk
  unfold nextInitializedTick at h
  cases lte with
  | true =>
    simp only [if_true] at h ⊢
    obtain ⟨habs, -⟩ | ⟨-, -, hnone⟩ := lastOr_spec h
    · cases habs
    · have := of_decide_eq_false (hnone k v hk)
      omega
  | false =>
    simp only [Bool.false_eq_true, if_false] at h ⊢
    obtain ⟨habs, -⟩ | ⟨-, -, hnone⟩ := headOr_spec h
    · cases habs
    · have := of_decide_eq_false (hnone k v hk)
      omega

theorem heading_of_search (h : nextInitializedTick w.ticks u.tickCurrent w.zeroForOne .nextInitialized = .ok (found, true)) :
    Heading w u found := by
  cases hz : w.zeroForOne with
  | true =>
    rw [hz] at h
    obtain ⟨hle, hinit, hpass⟩ := nextInitializedTick_down h
    refine ⟨hinit.1 rfl, by rw [hz]; exact hle, fun k v hk => ?_⟩
    rw [hz, if_pos rfl]
    exact hpass trivial k v hk
  | false =>
    rw [hz] at h
    obtain ⟨⟨hlt, hinit, -⟩ | ⟨-, habs, -⟩, hpass⟩ := nextInitializedTick_up h
    · refine ⟨hinit.1 rfl, by rw [hz]; exact hlt, fun k v hk => ?_⟩
      rw [hz, if_neg Bool.false_ne_true]
      exact hpass trivial k v hk
    · cases habs

/-- A round on the way finds the tick, or an edge before it. -/
theorem Heading.search (hg : Grounded w) (h : Heading w u found) (ho : Onward w u u' stop found' initialized step) :
    (initialized = true ∧ found' = found) ∨
      (initialized = false ∧ if w.zeroForOne then found < found' else found' < found) := by
  obtain ⟨⟨v, hv⟩, hahead, hfirst⟩ := h
  have hsearch := ho.search
  cases hz : w.zeroForOne with
  | true =>
    rw [hz] at hsearch hahead
    obtain ⟨hle, hinit, hpass⟩ := nextInitializedTick_down hsearch
    have hfound := hpass hg.aligned found v hv hahead
    cases initialized with
    | true =>
      obtain ⟨v', hv'⟩ := hinit.1 rfl
      have hback := hfirst found' v' hv'
      rw [hz, if_pos rfl] at hback
      exact .inl ⟨rfl, le_antisymm (hback hle) hfound⟩
    | false =>
      refine .inr ⟨rfl, lt_of_le_of_ne hfound fun heq => ?_⟩
      exact Bool.false_ne_true (hinit.2 ⟨v, heq ▸ hv⟩)
  | false =>
    have hlt := ho.above hz
    rw [hz] at hsearch hahead
    obtain ⟨⟨-, hinit, -⟩ | ⟨heq, -⟩, hpass⟩ := nextInitializedTick_up hsearch
    swap
    · omega
    have hfound := hpass hg.aligned found v hv hahead
    cases initialized with
    | true =>
      obtain ⟨v', hv'⟩ := hinit.1 rfl
      have hback := hfirst found' v' hv'
      rw [hz, if_neg Bool.false_ne_true] at hback
      exact .inl ⟨rfl, le_antisymm hfound (hback hlt)⟩
    | false =>
      refine .inr ⟨rfl, lt_of_le_of_ne hfound fun heq => ?_⟩
      exact Bool.false_ne_true (hinit.2 ⟨v, heq ▸ hv⟩)

/-- Past an edge on the way it still goes for the same tick. -/
theorem Heading.edge (h : Heading w u found) (hle : if w.zeroForOne then found' ≤ u.tickCurrent else u.tickCurrent < found')
    (hbefore : if w.zeroForOne then found < found' else found' < found)
    (htick : u'.tickCurrent = if w.zeroForOne then found' - 1 else found') : Heading w u' found := by
  obtain ⟨hkey, hahead, hfirst⟩ := h
  refine ⟨hkey, ?_, fun k v hk => ?_⟩
  · rw [htick]
    split
    next hz => rw [if_pos hz] at hbefore; omega
    next hz => rw [if_neg hz] at hbefore; exact hbefore
  · have hk := hfirst k v hk
    rw [htick]
    split
    next hz =>
      rw [if_pos hz] at hk hle
      exact fun hlt => hk (by omega)
    next hz =>
      rw [if_neg hz] at hk hle
      exact fun hlt => hk (by omega)

theorem onSide_antisymm {zeroForOne : Bool} {x y : Nat} (h : OnSide zeroForOne x y) (h' : OnSide zeroForOne y x) : x = y := by
  cases zeroForOne
  · exact le_antisymm h h'
  · exact le_antisymm h' h

theorem target_mono {x y : Nat} (h : OnSide c.zeroForOne x y) : OnSide c.zeroForOne (c.target x) (c.target y) := by
  unfold OnSide target at *
  split at h
  · rw [if_pos ‹_›, if_pos ‹_›, if_pos ‹_›]
    exact max_le_max h le_rfl
  · rw [if_neg ‹_›, if_neg ‹_›, if_neg ‹_›]
    exact min_le_min h le_rfl

/-- A trail goes on with a step of the other run. -/
theorem Trail.onward (ha : Alike c w) {i f o : Nat} (h : Trail c s found u.sqrtPriceX96 i f o)
    (hliq : u.liquidity = s.liquidity) (ho : Onward w u u' stop found' initialized step)
    (hnear : if w.zeroForOne then found ≤ found' else found' ≤ found) :
    Trail c s found step.sqrtRatioNextX96 (i + step.amountIn) (f + step.feeAmount) (o + step.amountOut) := by
  obtain ⟨honSide, -, hcovers, hpays, hfee⟩ := h
  have hstep := ho.ok.onSide
  have hnot := ho.ok.notPast
  have hcov := ho.ok.covers
  have hpay := ho.ok.pays
  have hfees := ho.ok.feeCovers
  rw [← ha.zeroForOne] at hnear hstep hnot hcov hpay
  rw [hliq] at hcov hpay
  rw [← ha.target] at hnot
  rw [← ha.fee] at hfees
  refine ⟨honSide.trans hstep, hnot.trans (target_mono ?_), hcovers.add ho.pos honSide hstep hcov,
    hpays.add ho.pos honSide hstep hpay, ?_⟩
  · unfold OnSide
    split
    next hz => rw [if_pos hz] at hnear; exact sqrtRatio_clamp_mono hnear
    next hz => rw [if_neg hz] at hnear; exact sqrtRatio_clamp_mono hnear
  · rw [Nat.add_mul, Nat.add_mul]
    exact Nat.add_le_add hfee hfees

theorem Onward.trail (h : Onward c s s' stop found initialized step) : Trail c s found s.sqrtPriceX96 0 0 0 := by
  refine ⟨onSide_refl _ _, h.side, ?_, ?_, by rw [Nat.zero_mul, Nat.zero_mul]⟩
  · rw [Covers, Nat.sub_self, Nat.mul_zero, Nat.mul_zero]
    split <;> exact Nat.zero_le _
  · rw [Pays, Nat.zero_mul, Nat.zero_mul]
    split <;> exact Nat.zero_le _

/-- A step of least input costs no more than a trail at least as far. -/
theorem Trail.cost {i f o q : Nat} (h : Trail c s found q i f o) (hq0 : 0 < q)
    (hleast : LeastIn c.zeroForOne s.sqrtPriceX96 step.sqrtRatioNextX96 s.liquidity c.fee step)
    (hon : OnSide c.zeroForOne s.sqrtPriceX96 step.sqrtRatioNextX96) (hfar : OnSide c.zeroForOne step.sqrtRatioNextX96 q) :
    step.amountIn + step.feeAmount ≤ i + f := by
  have hin := (hleast.amountIn i).2 (h.covers.nearer hq0 hon hfar)
  have hfee := (hleast.feeAmount f).2 ((Nat.mul_le_mul_right _ hin).trans h.fee)
  omega

/-- An exact-input round against a trail that took no more than it has. -/
theorem Trail.spent (hg : Grounded c) (hin : c.exactInput) (hs : Fits c s) (hfull : FullPrecision c s) {i f o q : Nat}
    (h : Trail c s found q i f o) (hq0 : 0 < q) (hle : (i + f : Int) ≤ s.amountSpecifiedRemaining)
    (ho : Onward c s s' stop found initialized step) :
    o ≤ step.amountOut ∧ (q = c.target (sqrtRatio (clampTick found)) →
      step.sqrtRatioNextX96 = c.target (sqrtRatio (clampTick found)) ∧ step.amountIn + step.feeAmount ≤ i + f) := by
  have hmost := hs.remaining.mem
  have hless : i ≤ lessFee s.amountSpecifiedRemaining.toNat c.fee := le_lessFee hg.fee h.fee (by omega)
  have hcov := h.covers.mono hless
  obtain ⟨hpays, hcase⟩ := ho.spends hg hin hs
  rcases hcase with ⟨hnext, hleast⟩ | ⟨hshort, hnext⟩
  · refine ⟨(hpays o).2 (h.pays.further hq0 h.onSide (hnext ▸ h.notPast)), fun hreach => ⟨hnext, ?_⟩⟩
    exact h.cost hq0 (hnext ▸ hleast) ho.ok.onSide (by rw [hnext, hreach]; exact onSide_refl _ _)
  · have hlessle := lessFee_le s.amountSpecifiedRemaining.toNat c.fee
    have hfar := nextFromInput_reaches hs.price hs.liquidity ho.side h.onSide (hg.target_mem found).2 (by omega) hshort
      (fun hz => hfull hz hin found initialized ho.search (hz ▸ hshort)) hcov hnext
    exact ⟨(hpays o).2 (h.pays.further hq0 h.onSide hfar), fun hreach => absurd (hreach ▸ hcov) hshort⟩

/-- An exact-output round against a trail. -/
theorem Trail.given (hg : Grounded c) (hout : ¬c.exactInput) (hs : Fits c s) (hgo : c.goesOn s) {i f o q : Nat}
    (h : Trail c s found q i f o) (hq0 : 0 < q) (ho : Onward c s s' stop found initialized step) :
    (q = c.target (sqrtRatio (clampTick found)) → step.amountIn + step.feeAmount ≤ i + f ∧
      (o ≤ step.amountOut ∨ (step.amountOut : Int) = -s.amountSpecifiedRemaining)) ∧
    (-s.amountSpecifiedRemaining ≤ o → (step.amountOut : Int) = -s.amountSpecifiedRemaining ∧
      (step.amountIn + step.feeAmount ≤ i + f ∨ (step.sqrtRatioNextX96 = c.target (sqrtRatio (clampTick found)) ∧
        ¬OnSide c.zeroForOne step.sqrtRatioNextX96 q))) := by
  have hneg := hs.remaining.neg hgo.1 hout
  have hmost := (ho.ok.exactOut hneg).1
  obtain ⟨hleast, hcase⟩ := ho.gives hg hout hs hgo
  refine ⟨fun hreach => ⟨?_, ?_⟩, fun hle => ?_⟩
  · exact h.cost hq0 hleast ho.ok.onSide (hreach ▸ ho.ok.notPast)
  · rcases hcase with ⟨hnext, hpays⟩ | ⟨hall, -⟩
    · exact .inl ((hpays o).2 (hreach ▸ h.pays))
    · exact .inr hall
  · rcases hcase with ⟨hnext, hpays⟩ | ⟨hall, hnear⟩
    · have hge := (hpays o).2 (h.pays.further hq0 h.onSide h.notPast)
      refine ⟨by omega, ?_⟩
      by_cases hfar : OnSide c.zeroForOne step.sqrtRatioNextX96 q
      · exact .inl (h.cost hq0 hleast ho.ok.onSide hfar)
      · exact .inr ⟨hnext, hfar⟩
    · refine ⟨hall, .inl (h.cost hq0 hleast ho.ok.onSide (hnear q h.onSide ?_))⟩
      exact h.pays.less (by omega)

/-! ## Two runs -/

/-- With nothing initialized ahead there is nothing in range. -/
theorem Consistent.none_ahead (hg : Grounded w) (h : Consistent w u)
    (hnone : ∀ k v, w.ticks[k]? = some v → if w.zeroForOne then u.tickCurrent < k else k ≤ u.tickCurrent) :
    u.liquidity = 0 := by
  have hsum := h.liquidity
  cases hz : w.zeroForOne with
  | true =>
    have hempty : netsUpTo w.ticks u.tickCurrent = 0 := Ranges.sumRange_empty fun k v hk => by
      have hlt := hnone k v hk
      rw [if_pos hz] at hlt
      exact decide_eq_false (by omega)
    exact_mod_cast hsum.trans hempty
  | false =>
    have hall : ∀ k v, w.ticks[k]? = some v → k ≤ u.tickCurrent := fun k v hk => by
      have hle := hnone k v hk
      rwa [hz, if_neg Bool.false_ne_true] at hle
    rw [netsUpTo_all hall, hg.cancel] at hsum
    exact_mod_cast hsum

/-- Where the word run `u` is while the list run is at `s`: level with it, or on a trail inside its next round. -/
inductive Lag (c w : SwapCall) (s u : SwapState) : (i f o : Nat) → Prop
  | level (hb : Beside s u) : Lag c w s u 0 0 0
  | behind {found : Int} {s' : SwapState} {stop : Bool} {step : SwapStep} {i f o : Nat} (hgo : c.goesOn s)
      (hround : c.round s = .ok (s', stop)) (ho : Onward c s s' stop found true step)
      (htrail : Trail c s found u.sqrtPriceX96 i f o) (hhead : w.goesOn u → Heading w u found ∧ u.liquidity = s.liquidity) :
      Lag c w s u i f o

/-- A round without liquidity that finds no tick leaves a run over, with its whole amount. -/
theorem Onward.idle (hg : Grounded w) (hu : Fits w u) (hgo : w.goesOn u) (hl0 : u.liquidity = 0)
    (ho : Onward w u u' stop found false step) :
    u'.amountSpecifiedRemaining = u.amountSpecifiedRemaining ∧ (stop = true ∨ ¬w.goesOn u') := by
  obtain ⟨ht0, ht⟩ := hg.target_mem found
  obtain ⟨hnext, hin, hout, hfee⟩ :=
    computeSwapStep_noLiquidity hu.price ht0 ht hu.liquidity hg.fee_lt hl0 ho.swapStep
  have hrem := (account_remaining hu.remaining hgo.1 ho.ok).1
  rw [hin, hout, hfee, ← ho.ending.state.2.1] at hrem
  refine ⟨by rw [hrem]; split <;> simp, ?_⟩
  have hend := ho.ending
  cases hend with
  | crossed liquidity _ hliq =>
    have hliq : liquidity = u.liquidity := hliq
    exact .inl (decide_eq_true (hliq.trans hl0))
  | moved tick hne _ _ => exact .inr (ho.short hu hgo hne)
  | stayed hne _ => exact .inr (ho.short hu hgo hne)

/-- Going on, both runs, the word run is inside the list run's next round. -/
theorem Lag.within (hg : Grounded c) (hgw : Grounded w) (ha : Alike c w) (hsearch : c.tickSearch = .nextInitialized)
    (hs : Steady c s) (hu : Steady w u) (hgo : c.goesOn s) (hgow : w.goesOn u) {fuel fuel' i f o : Nat} {sf uf : SwapState}
    (h : Lag c w s u i f o) (hloop : c.loop fuel s = .ok sf) (hloopw : w.loop fuel' u = .ok uf)
    (hdone : uf.amountSpecifiedRemaining = 0) :
    ∃ found s' stop step, c.round s = .ok (s', stop) ∧ Onward c s s' stop found true step ∧
      Trail c s found u.sqrtPriceX96 i f o ∧ Heading w u found ∧ u.liquidity = s.liquidity := by
  cases h with
  | behind _ hround ho htrail hhead =>
    obtain ⟨hhead, hliq⟩ := hhead hgow
    exact ⟨_, _, _, _, hround, ho, htrail, hhead, hliq⟩
  | level hb =>
    obtain ⟨hprice, htick, hliq⟩ := hb
    obtain ⟨_, s', stop, -, hround, -⟩ := loop_goes hgo hloop
    obtain ⟨found, initialized, step, ho⟩ := hs.onward hg hgo hround
    have hfound := ho.search
    rw [hsearch, ha.ticks, ha.zeroForOne, htick] at hfound
    cases initialized with
    | true =>
      exact ⟨found, s', stop, step, hround, ho, hprice ▸ ho.trail, heading_of_search hfound, hliq.symm⟩
    | false =>
      -- nothing initialized ahead: no liquidity either, and the word run would be over with its amount
      exfalso
      have hnone := nextInitializedTick_none hfound
      have hl0 := (hu.consistent hgow).none_ahead hgw hnone
      obtain ⟨_, u', stop', -, hroundw, hrestw⟩ := loop_goes hgow hloopw
      obtain ⟨found', initialized', step', how⟩ := hu.onward hgw hgow hroundw
      have hinit : initialized' = false := by
        refine Bool.eq_false_iff.2 fun hinit => ?_
        have hsearchw := how.search
        subst hinit
        cases hz : w.zeroForOne with
        | true =>
          rw [hz] at hsearchw
          obtain ⟨hle, hkey, -⟩ := nextInitializedTick_down hsearchw
          obtain ⟨v, hv⟩ := hkey.1 rfl
          have hlt := hnone found' v hv
          rw [if_pos hz] at hlt
          omega
        | false =>
          have hlt := how.above hz
          rw [hz] at hsearchw
          obtain ⟨⟨-, hkey, -⟩ | ⟨heq, -⟩, -⟩ := nextInitializedTick_up hsearchw
          swap
          · omega
          obtain ⟨v, hv⟩ := hkey.1 rfl
          have hle := hnone found' v hv
          rw [hz, if_neg Bool.false_ne_true] at hle
          omega
      subst hinit
      obtain ⟨hrem, hover⟩ := how.idle hgw hu.fits hgow hl0
      have huf : uf = u' := by
        split at hrestw
        · exact hrestw
        · exact loop_ended (hover.resolve_left ‹_›) hrestw
      exact hgow.1 (by rw [← hrem, ← huf, hdone])

/-- A round of the word run: still on the trail, or on the tick's price. -/
theorem Trail.round (ha : Alike c w) (hgw : Grounded w) (hu : Steady w u) (hcu : Consistent w u) (hgow : w.goesOn u)
    {i f o : Nat} (h : Trail c s found u.sqrtPriceX96 i f o) (hhead : Heading w u found) (hliq : u.liquidity = s.liquidity)
    (how : Onward w u u' stop' found' initialized' step') :
    Trail c s found u'.sqrtPriceX96 (i + step'.amountIn) (f + step'.feeAmount) (o + step'.amountOut) ∧
      ((w.goesOn u' → Heading w u' found ∧ u'.liquidity = s.liquidity) ∨
        (initialized' = true ∧ found' = found ∧ step'.sqrtRatioNextX96 = sqrtRatio (clampTick found) ∧
          step'.sqrtRatioNextX96 = c.target (sqrtRatio (clampTick found)))) := by
  rw [how.ending.state.1]
  rcases hhead.search hgw how with ⟨rfl, rfl⟩ | ⟨rfl, hbefore⟩
  · have htrail := h.onward ha hliq how (by split <;> exact le_rfl)
    refine ⟨htrail, ?_⟩
    by_cases hprice : step'.sqrtRatioNextX96 = sqrtRatio (clampTick found')
    · have hnot := htrail.notPast
      have htarget := target_onSide c (sqrtRatio (clampTick found'))
      rw [hprice] at hnot
      refine .inr ⟨rfl, rfl, hprice, hprice.trans ?_⟩
      exact onSide_antisymm hnot htarget
    · exact .inl fun hgo' => absurd hgo' (how.short hu.fits hgow hprice)
  · have hnear : if w.zeroForOne then found ≤ found' else found' ≤ found := by
      split
      next hz => rw [if_pos hz] at hbefore; exact hbefore.le
      next hz => rw [if_neg hz] at hbefore; exact hbefore.le
    refine ⟨h.onward ha hliq how hnear, .inl fun hgo' => ?_⟩
    have hprice : step'.sqrtRatioNextX96 = sqrtRatio (clampTick found') := by
      by_contra hshort
      exact how.short hu.fits hgow hshort hgo'
    obtain ⟨-, -, -, htick, -, hdown, -⟩ := how.crossed hgw hcu hprice
    refine ⟨hhead.edge ?_ hbefore htick, ?_⟩
    · split
      next hz => exact (hdown hz).2
      next hz => exact how.above (Bool.not_eq_true _ ▸ hz)
    · have hend := how.ending
      cases hend with
      | crossed liquidity _ hl => exact Eq.trans hl hliq
      | moved _ hne _ _ => exact absurd hprice hne
      | stayed hne _ => exact absurd hprice hne

/-- What the word run had been paid when it was over, the list run is paid too. -/
theorem Lag.paid (hg : Grounded c) (hin : c.exactInput) (hp : s₀.sqrtPriceX96 < 2 ^ 160)
    (hs : Steady c s) (hcu : Consistent w u) (hfull : c.goesOn s → FullPrecision c s) {fuel i f o k kw : Nat} {sf : SwapState}
    (h : Lag c w s u i f o) (hleft : 0 ≤ u.amountSpecifiedRemaining)
    (hrem : u.amountSpecifiedRemaining + (i + f) ≤ s.amountSpecifiedRemaining) (hk : Paid c s₀ s k) (hle : kw ≤ k + o)
    (hloop : c.loop fuel s = .ok sf) : ∃ m, kw ≤ m ∧ Paid c s₀ sf m := by
  have hq0 : 0 < u.sqrtPriceX96 := by
    have hmin : 0 < MIN_SQRT_RATIO := by decide
    exact hmin.trans_le ((sqrtRatio_mem hcu.mem).1.trans hcu.low)
  cases h with
  | level hb =>
    obtain ⟨m, hm, hpaid⟩ := loop_paid hg hin hp hs hk hloop
    exact ⟨m, by omega, hpaid⟩
  | behind hgo hround ho htrail hhead =>
    have hgives := (htrail.spent hg hin hs.fits (hfull hgo) hq0 (by omega) ho).1
    obtain ⟨_, _, _, -, hround', hrest⟩ := loop_goes hgo hloop
    cases hround.symm.trans hround'
    obtain ⟨m, hm, hpaid⟩ := loop_paid_round hg hin hp hs hgo ho hk hrest
    exact ⟨m, by omega, hpaid⟩

/-- **An exact input is paid no more for stopping at word edges.** -/
theorem loop_edges_in (hg : Grounded c) (hgw : Grounded w) (ha : Alike c w) (hsearch : c.tickSearch = .nextInitialized)
    (hin : c.exactInput) (hinw : w.exactInput) (hp : s₀.sqrtPriceX96 < 2 ^ 160) (hpw : u₀.sqrtPriceX96 < 2 ^ 160)
    (hfull : ∀ s, Reaches c s₀ s false → c.goesOn s → FullPrecision c s) {fuel fuel' i f o k kw : Nat} {sf uf : SwapState}
    (hs : Steady c s) (hu : Steady w u) (hcu : Consistent w u) (hreach : Reaches c s₀ s false) (h : Lag c w s u i f o)
    (hrem : u.amountSpecifiedRemaining + (i + f) ≤ s.amountSpecifiedRemaining) (hk : Paid c s₀ s k) (hkw : Paid w u₀ u kw)
    (hle : kw ≤ k + o) (hloop : c.loop fuel s = .ok sf) (hloopw : w.loop fuel' u = .ok uf)
    (hdone : uf.amountSpecifiedRemaining = 0) : ∃ m m', m ≤ m' ∧ Paid w u₀ uf m ∧ Paid c s₀ sf m' := by
  induction fuel' generalizing fuel s u i f o k kw with
  | zero => cases hloopw
  | succ fuel' ih =>
    have hleft := hu.fits.remaining.nonneg hinw
    by_cases hgow : w.goesOn u
    swap
    · obtain ⟨m, hm, hpaid⟩ := h.paid hg hin hp hs hcu (hfull s hreach) hleft hrem hk hle hloop
      exact ⟨kw, m, hm, loop_ended hgow hloopw ▸ hkw, hpaid⟩
    have hgo : c.goesOn s := by
      cases h with
      | behind hgo => exact hgo
      | level hb => exact ⟨by have := hgow.1; omega, by rw [hb.price, ha.limit]; exact hgow.2⟩
    obtain ⟨found, s', stop, step, hround, ho, htrail, hhead, hliq⟩ := h.within hg hgw ha hsearch hs hu hgo hgow hloop hloopw hdone
    obtain ⟨_, u', stop', hfuel, hroundw, hrestw⟩ := loop_goes hgow hloopw
    cases Nat.succ.inj hfuel
    obtain ⟨found', initialized', step', how⟩ := hu.onward hgw hgow hroundw
    have hremw := (account_remaining hu.fits.remaining hgow.1 how.ok).1
    rw [if_pos hinw, ← how.ending.state.2.1] at hremw
    have hkw' := how.paid hgw hinw hpw hu.fits hkw
    have hu' := how.steady hgw hu hgow
    have hcu' := (how.advances hgw hcu).consistent
    have hleft' := hu'.fits.remaining.nonneg hinw
    obtain ⟨htrail', hcase⟩ := htrail.round ha hgw hu hcu hgow hhead hliq how
    rcases hcase with hon | ⟨rfl, rfl, hprice, hreached⟩
    · have hlag : Lag c w s u' _ _ _ := .behind hgo hround ho htrail' hon
      split at hrestw
      · have hle' : kw + step'.amountOut ≤ k + (o + step'.amountOut) := by omega
        obtain ⟨m, hm, hpaid⟩ := hlag.paid hg hin hp hs hcu' (hfull s hreach) hleft' (by push_cast; omega) hk hle' hloop
        exact ⟨_, m, hm, hrestw ▸ hkw', hpaid⟩
      · exact ih hs hu' hcu' hreach hlag (by push_cast; omega) hk hkw' (by omega) hloop hrestw
    · -- both on the tick: level again
      rw [how.ending.state.1] at htrail'
      obtain ⟨hgives, hcost⟩ := htrail'.spent hg hin hs.fits (hfull s hreach hgo) (how.next_pos hgw) (by push_cast; omega) ho
      obtain ⟨hnext, hcost⟩ := hcost hreached
      obtain ⟨hb, rfl⟩ := ho.ending.meets ha hliq.symm (hnext.trans (hreached.symm.trans hprice)) hprice how.ending
      have hremc := (account_remaining hs.fits.remaining hgo.1 ho.ok).1
      rw [if_pos hin, ← ho.ending.state.2.1] at hremc
      have hk' := ho.paid hg hin hp hs.fits hk
      obtain ⟨_, _, _, -, hround', hrest⟩ := loop_goes hgo hloop
      cases hround.symm.trans hround'
      cases stop with
      | true =>
        simp only [if_true] at hrest hrestw
        exact ⟨_, _, by omega, hrestw ▸ hkw', hrest ▸ hk'⟩
      | false =>
        simp only [Bool.false_eq_true, if_false] at hrest hrestw
        exact ih (ho.steady hg hs hgo) hu' hcu' (hreach.round hgo hround) (.level hb) (by push_cast; omega) hk' hkw' (by omega)
          hrest hrestw

/-- The run's last round ends at the price it aims at. -/
def EndsOnTarget (c : SwapCall) (s₀ s' : SwapState) : Prop :=
  ∃ s stop found initialized, Reaches c s₀ s false ∧ c.goesOn s ∧ c.round s = .ok (s', stop) ∧
    nextInitializedTick c.ticks s.tickCurrent c.zeroForOne c.tickSearch = .ok (found, initialized) ∧
    s'.sqrtPriceX96 = c.target (sqrtRatio (clampTick found))

/-- A run that has nothing left to do after its round ends there. -/
theorem loop_last {fuel : Nat} {sf : SwapState} (hdone : s'.amountSpecifiedRemaining = 0)
    (hrest : if stop then sf = s' else c.loop fuel s' = .ok sf) : sf = s' := by
  split at hrest
  · exact hrest
  · exact loop_ended (fun hgo => hgo.1 hdone) hrest

/-- What the list run is charged, the word run had been charged when it was over. -/
theorem Lag.charged (hg : Grounded c) (hout : ¬c.exactInput) {bound : Nat} (hb : bound < 2 ^ 255) (hs : Steady c s)
    (hcs : Consistent c s) (hcu : Consistent w u) (hreach : Reaches c s₀ s false) {fuel i f o n nw : Nat} {sf : SwapState}
    (h : Lag c w s u i f o) (hover : u.amountSpecifiedRemaining = 0)
    (hrem : u.amountSpecifiedRemaining ≤ s.amountSpecifiedRemaining + o) (hn : Charged c bound s n) (hle : n + (i + f) ≤ nw)
    (hloop : c.loop fuel s = .ok sf) (hfar : EndsOnTarget c s₀ sf → OnSide c.zeroForOne sf.sqrtPriceX96 u.sqrtPriceX96) :
    ∃ m, m ≤ nw ∧ Charged c bound sf m := by
  have hq0 : 0 < u.sqrtPriceX96 := by
    have hmin : 0 < MIN_SQRT_RATIO := by decide
    exact hmin.trans_le ((sqrtRatio_mem hcu.mem).1.trans hcu.low)
  cases h with
  | level hb =>
    have hsigned := hs.fits.remaining
    rw [Signed, if_neg hout] at hsigned
    have hgo : ¬c.goesOn s := fun hgo => hgo.1 (by omega)
    exact ⟨n, by omega, loop_ended hgo hloop ▸ hn⟩
  | @behind found s' stop step i f o hgo hround ho htrail hhead =>
    obtain ⟨hall, hcost⟩ := (htrail.given hg hout hs.fits hgo hq0 ho).2 (by omega)
    have hn' := ho.charged hg hout hb hs hcs hgo hround hn
    have hremc := (account_remaining hs.fits.remaining hgo.1 ho.ok).1
    rw [if_neg hout, ← ho.ending.state.2.1] at hremc
    obtain ⟨_, _, _, -, hround', hrest⟩ := loop_goes hgo hloop
    cases hround.symm.trans hround'
    have hsf := loop_last (by omega) hrest
    refine ⟨_, ?_, hsf ▸ hn'⟩
    rcases hcost with hcost | ⟨hnext, hshort⟩
    · omega
    · refine absurd ?_ hshort
      rw [← ho.ending.state.1, ← hsf]
      refine hfar ⟨s, stop, found, true, hreach, hgo, hsf ▸ hround, ho.search, ?_⟩
      rw [hsf, ho.ending.state.1, hnext]

/-- **An exact output costs no less for stopping at word edges**, unless the word run had it all before the price that
the list run's last round aims at. -/
theorem loop_edges_out (hg : Grounded c) (hgw : Grounded w) (ha : Alike c w) (hsearch : c.tickSearch = .nextInitialized)
    (hout : ¬c.exactInput) (houtw : ¬w.exactInput) {bound : Nat} (hb : bound < 2 ^ 255) {fuel fuel' i f o n nw : Nat}
    {sf uf : SwapState} (hs : Steady c s) (hcs : Consistent c s) (hu : Steady w u) (hcu : Consistent w u)
    (hreach : Reaches c s₀ s false) (h : Lag c w s u i f o)
    (hrem : u.amountSpecifiedRemaining ≤ s.amountSpecifiedRemaining + o) (hn : Charged c bound s n) (hnw : Charged w bound u nw)
    (hle : n + (i + f) ≤ nw) (hloop : c.loop fuel s = .ok sf) (hloopw : w.loop fuel' u = .ok uf)
    (hdone : uf.amountSpecifiedRemaining = 0)
    (hfar : EndsOnTarget c s₀ sf → OnSide c.zeroForOne sf.sqrtPriceX96 uf.sqrtPriceX96) :
    ∃ m m', m ≤ m' ∧ Charged c bound sf m ∧ Charged w bound uf m' := by
  induction fuel' generalizing fuel s u i f o n nw with
  | zero => cases hloopw
  | succ fuel' ih =>
    by_cases hgow : w.goesOn u
    swap
    · have huf := loop_ended hgow hloopw
      rw [huf] at hdone hfar
      obtain ⟨m, hm, hmc⟩ := h.charged hg hout hb hs hcs hcu hreach hdone hrem hn hle hloop hfar
      exact ⟨m, nw, hm, hmc, huf ▸ hnw⟩
    by_cases hgo : c.goesOn s
    swap
    · -- the list run is over, level with the other
      cases h with
      | behind hgo' => exact absurd hgo' hgo
      | level hb' =>
        obtain ⟨m', hm', hmw, -⟩ := loop_charged hgw houtw hb hu hcu hnw hloopw
        exact ⟨n, m', by omega, loop_ended hgo hloop ▸ hn, hmw⟩
    obtain ⟨found, s', stop, step, hround, ho, htrail, hhead, hliq⟩ := h.within hg hgw ha hsearch hs hu hgo hgow hloop hloopw hdone
    obtain ⟨_, u', stop', hfuel, hroundw, hrestw⟩ := loop_goes hgow hloopw
    cases Nat.succ.inj hfuel
    obtain ⟨found', initialized', step', how⟩ := hu.onward hgw hgow hroundw
    have hremw := (account_remaining hu.fits.remaining hgow.1 how.ok).1
    rw [if_neg houtw, ← how.ending.state.2.1] at hremw
    have hnw' := how.charged hgw houtw hb hu hcu hgow hroundw hnw
    have hu' := how.steady hgw hu hgow
    have hcu' := (how.advances hgw hcu).consistent
    obtain ⟨htrail', hcase⟩ := htrail.round ha hgw hu hcu hgow hhead hliq how
    rcases hcase with hon | ⟨rfl, rfl, hprice, hreached⟩
    · have hlag : Lag c w s u' _ _ _ := .behind hgo hround ho htrail' hon
      split at hrestw
      · rw [hrestw] at hdone hfar
        have hle' : n + (i + step'.amountIn + (f + step'.feeAmount)) ≤ nw + (step'.amountIn + step'.feeAmount) := by omega
        obtain ⟨m, hm, hmc⟩ := hlag.charged hg hout hb hs hcs hcu' hreach hdone (by push_cast; omega) hn hle' hloop hfar
        exact ⟨m, _, hm, hmc, hrestw ▸ hnw'⟩
      · exact ih hs hcs hu' hcu' hreach hlag (by push_cast; omega) hn hnw' (by omega) hloop hrestw
    · rw [how.ending.state.1] at htrail'
      obtain ⟨hcost, hcase⟩ := (htrail'.given hg hout hs.fits hgo (how.next_pos hgw) ho).1 hreached
      have hremc := (account_remaining hs.fits.remaining hgo.1 ho.ok).1
      rw [if_neg hout, ← ho.ending.state.2.1] at hremc
      have hn' := ho.charged hg hout hb hs hcs hgo hround hn
      obtain ⟨_, _, _, -, hround', hrest⟩ := loop_goes hgo hloop
      cases hround.symm.trans hround'
      by_cases hall : (step.amountOut : Int) = -s.amountSpecifiedRemaining
      · -- the list run has the whole output
        have hmore : ∃ m', nw + (step'.amountIn + step'.feeAmount) ≤ m' ∧ Charged w bound uf m' := by
          split at hrestw
          · exact ⟨_, le_rfl, hrestw ▸ hnw'⟩
          · obtain ⟨m', hm', hmw, -⟩ := loop_charged hgw houtw hb hu' hcu' hnw' hrestw
            exact ⟨m', hm', hmw⟩
        obtain ⟨m', hm', hmw⟩ := hmore
        exact ⟨_, m', by omega, loop_last (by omega) hrest ▸ hn', hmw⟩
      · have hnext : step.sqrtRatioNextX96 = c.target (sqrtRatio (clampTick found')) := by
          by_contra hne
          exact hall ((ho.ok.exactOut (hs.fits.remaining.neg hgo.1 hout)).2 hne)
        have hgives := hcase.resolve_right hall
        obtain ⟨hbeside, rfl⟩ := ho.ending.meets ha hliq.symm (hnext.trans (hreached.symm.trans hprice)) hprice how.ending
        cases stop with
        | true =>
          simp only [if_true] at hrest hrestw
          exact ⟨_, _, by omega, hrest ▸ hn', hrestw ▸ hnw'⟩
        | false =>
          simp only [Bool.false_eq_true, if_false] at hrest hrestw
          exact ih (ho.steady hg hs hgo) (ho.advances hg hcs).consistent hu' hcu' (hreach.round hgo hround) (.level hbeside)
            (by push_cast; omega) hn' hnw' (by omega) hrest hrestw

end SwapCall

/-- **Word edges never favour the trader**: the same amount, swapped with either search to its end, is paid no more as an
exact input, and costs no less as an exact output where the word run gets as far as the list run, which it does unless
the list run ends on the price it aims at. -/
theorem wordEdges_cost {fuel fuel' fee price liquidity : Nat} {tick tickSpacing : Int} {ticks : TickMap} {zeroForOne : Bool}
    {amount : Int} {limit : Option Nat} {s s' : SwapState} (hwf : WellFormed price tick liquidity ticks tickSpacing)
    (hfee : fee < MAX_FEE) (ha : -2 ^ 255 < amount ∧ amount < 2 ^ 255) :
    let c : SwapCall := ⟨fee, ticks, .nextInitialized, zeroForOne,
      limit.getD (if zeroForOne then MIN_SQRT_RATIO + 1 else MAX_SQRT_RATIO - 1), decide (amount ≥ 0)⟩
    let s₀ : SwapState := ⟨amount, 0, price, tick, liquidity⟩
    v3Swap fuel fee price tick liquidity ticks .nextInitialized zeroForOne amount limit = .ok s →
    s.amountSpecifiedRemaining = 0 →
    v3Swap fuel' fee price tick liquidity ticks (.wordBounded tickSpacing) zeroForOne amount limit = .ok s' →
    s'.amountSpecifiedRemaining = 0 →
    (∀ u, c.Reaches s₀ u false → c.goesOn u → c.FullPrecision u) →
    (0 ≤ amount → s'.amountCalculated.natAbs ≤ s.amountCalculated.natAbs) ∧
      (amount < 0 → (c.EndsOnTarget s₀ s → OnSide zeroForOne s.sqrtPriceX96 s'.sqrtPriceX96) →
        s.amountCalculated.natAbs ≤ s'.amountCalculated.natAbs) := by
  intro c s₀ h hdone h' hdone' hfull
  obtain ⟨_, rfl, hcheck, hloop⟩ := SwapCall.v3Swap_ok h
  obtain ⟨w, hw, hcheck', hloop'⟩ := SwapCall.v3Swap_ok h'
  obtain ⟨hg, hs⟩ := SwapCall.steady_start hwf (.inr rfl) hfee ⟨ha.1.le, ha.2⟩ hcheck
  obtain ⟨hgw, hu⟩ := SwapCall.steady_start hwf (.inl rfl) hfee ⟨ha.1.le, ha.2⟩ (hw ▸ hcheck')
  rw [← hw] at hgw hu
  have hlike : SwapCall.Alike c w := by
    rw [hw]
    exact ⟨rfl, rfl, rfl, rfl⟩
  have hmode : w.exactInput = c.exactInput := by rw [hw]
  have hcs : SwapCall.Consistent c s₀ := by
    obtain ⟨hmem, hlow, hhigh⟩ := hwf.floor
    exact ⟨hmem, hlow, fun hmax => (hhigh hmax).le, hwf.liquidity_eq⟩
  have hcu : SwapCall.Consistent w s₀ := ⟨hcs.mem, hcs.low, hcs.high, hlike.ticks ▸ hcs.liquidity⟩
  refine ⟨fun hpos => ?_, fun hneg hfar => ?_⟩
  · have hin : c.exactInput := decide_eq_true hpos
    have hunpaid : ∀ d, SwapCall.Paid d s₀ s₀ 0 := fun _ => ⟨rfl, (Nat.zero_add _).le⟩
    obtain ⟨m, m', hm, hpaid, hpaid'⟩ := SwapCall.loop_edges_in hg hgw hlike rfl hin (hmode ▸ hin) hwf.price_lt hwf.price_lt hfull
      hs hu hcu .start (.level ⟨rfl, rfl, rfl⟩) (by simp) (hunpaid c) (hunpaid w) le_rfl hloop hloop' hdone'
    rw [hpaid.calculated, hpaid'.calculated]
    omega
  · have hout : ¬c.exactInput := by
      change ¬decide (amount ≥ 0) = true
      rw [decide_eq_true_iff]
      omega
    obtain ⟨m, m', hm, hcharged, hcharged'⟩ := SwapCall.loop_edges_out hg hgw hlike rfl hout (hmode ▸ hout)
      (show 2 ^ 238 < 2 ^ 255 by decide) hs hcs hu hcu .start (.level ⟨rfl, rfl, rfl⟩) (by simp) (SwapCall.charged_start hcs.mem)
      (SwapCall.charged_start hcs.mem) (by omega) hloop hloop' hdone' hfar
    rw [hcharged.calculated, hcharged'.calculated]
    omega

theorem twoRanges_between : WellFormed (sqrtRatio 30) 30 (2 * 10 ^ 18) twoRanges 60 :=
  { twoRanges_wellFormed with
    price_lt := by decide +kernel
    floor := ⟨by decide, le_rfl, fun _ => by decide +kernel⟩
    liquidity_eq := by decide +kernel }

/-- Down across the edge at tick zero and then an initialized tick: a unit less of the output. -/
theorem wordEdges_cost_zero : ∃ s s',
    v3Swap 10 500 (sqrtRatio 30) 30 (2 * 10 ^ 18) twoRanges .nextInitialized true 9011713982475091 none = .ok s ∧
      v3Swap 10 500 (sqrtRatio 30) 30 (2 * 10 ^ 18) twoRanges (.wordBounded 60) true 9011713982475091 none = .ok s' ∧
      s.amountCalculated = -8993704086473589 ∧ s'.amountCalculated.natAbs ≤ s.amountCalculated.natAbs := by
  have hlist : v3Swap 10 500 (sqrtRatio 30) 30 (2 * 10 ^ 18) twoRanges .nextInitialized true 9011713982475091 none =
      .ok ⟨0, -8993704086473589, 78990775273334146051363861271, -61, 10 ^ 18⟩ := by decide +kernel
  have hword : v3Swap 10 500 (sqrtRatio 30) 30 (2 * 10 ^ 18) twoRanges (.wordBounded 60) true 9011713982475091 none =
      .ok ⟨0, -8993704086473588, 78990775273334146130117960574, -61, 10 ^ 18⟩ := by decide +kernel
  have hfee : 500 < MAX_FEE := by decide
  have ha : -2 ^ 255 ≤ (9011713982475091 : Int) ∧ (9011713982475091 : Int) < 2 ^ 255 := by decide
  obtain ⟨c, hc, hcheck, -⟩ := SwapCall.v3Swap_ok hlist
  obtain ⟨hg, hs⟩ := SwapCall.steady_start twoRanges_between (.inr rfl) hfee ha (hc ▸ hcheck)
  exact ⟨_, _, hlist, hword, rfl, (wordEdges_cost twoRanges_between hfee (by decide) hlist rfl hword rfl
    fun u hreach _ => SwapCall.fullPrecision_of_lt hg hs (by decide) hreach).1 (by decide)⟩

/-- A position with its lower tick just past a word edge. -/
def edgeRange : TickMap :=
  ((∅ : TickMap).insert (-13828) ⟨-13828, 2000, 2000⟩).insert (-13700) ⟨-13700, -2000, 2000⟩

theorem edgeRange_wellFormed : WellFormed (sqrtRatio (-13800)) (-13800) 2000 edgeRange 1 := by
  have hkeys : ∀ (k : Int) v, edgeRange[k]? = some v → k = -13700 ∨ k = -13828 := fun k v hk => by
    unfold edgeRange at hk
    rw [Ranges.lookup_insert, Ranges.lookup_insert] at hk
    split at hk
    · exact .inl ‹_›
    split at hk
    · exact .inr ‹_›
    · simp at hk
  have hbounds : MIN_TICK ≤ -13828 ∧ (-13700 : Int) ≤ MAX_TICK := by decide
  refine ⟨by decide +kernel, by decide, ⟨by decide, le_rfl, fun _ => by decide +kernel⟩,
    ⟨fun k v hk => ⟨?_, one_dvd k⟩, by decide +kernel⟩, by decide +kernel⟩
  rcases hkeys k v hk with rfl | rfl <;> omega

/-- One unit out of it: the word run has it at the edge and is charged six, the list run goes on to the tick and is
charged seven. No token 0 price is updated. -/
theorem wordEdges_cost_fails :
    WellFormed (sqrtRatio (-13800)) (-13800) 2000 edgeRange 1 ∧ ∃ s s',
      v3Swap 10 3000 (sqrtRatio (-13800)) (-13800) 2000 edgeRange .nextInitialized true (-1) none = .ok s ∧
      s.amountSpecifiedRemaining = 0 ∧
      v3Swap 10 3000 (sqrtRatio (-13800)) (-13800) 2000 edgeRange (.wordBounded 1) true (-1) none = .ok s' ∧
      s'.amountSpecifiedRemaining = 0 ∧ s.amountCalculated = 7 ∧ s'.amountCalculated = 6 ∧
      ∀ search u, SwapCall.FullPrecision ⟨3000, edgeRange, search, true, MIN_SQRT_RATIO + 1, false⟩ u :=
  ⟨edgeRange_wellFormed, ⟨0, 7, 39684726494628354925346943782, -13829, 0⟩, ⟨0, 6, 39692663836774545542615562425, -13825, 2000⟩,
    by decide +kernel, rfl, by decide +kernel, rfl, rfl, rfl, fun _ _ _ hin => absurd hin Bool.false_ne_true⟩

end EvmDexPool.V3

import EvmDexPool.V3.Nets
import EvmDexPool.V3.TickLogs

/-!
# The price stays in the range of its tick

A round that crosses its tick leaves the price on the tick, one that stops short of it takes the floor
tick of the new price, and one that does not move the price leaves the tick. So the price is in the
range of the current tick all along, the liquidity is that of the range, and the ticks crossed are the
initialized ones that the current tick went past, each of them once (`v3Swap_inRange`).
-/

namespace EvmDexPool.V3

namespace SwapCall

variable {c : SwapCall} {s s' s₀ : SwapState} {stop : Bool}

/-- The round went down and ended at the price of the tick it searched for. -/
def LandsDown (c : SwapCall) (s s' : SwapState) : Prop :=
  c.zeroForOne = true ∧ ∃ found initialized,
    nextInitializedTick c.ticks s.tickCurrent c.zeroForOne c.tickSearch = .ok (found, initialized) ∧
      s'.sqrtPriceX96 = sqrtRatio (clampTick found)

/-- The price is where a downward step that reached its target tick left it. -/
inductive Rests (c : SwapCall) (s₀ : SwapState) : SwapState → Prop
  | landed {s s' : SwapState} {stop : Bool} (h : Reaches c s₀ s false) (hgo : c.goesOn s)
      (hround : c.round s = .ok (s', stop)) (hland : c.LandsDown s s') : Rests c s₀ s'
  | stayed {s s' : SwapState} {stop : Bool} (h : Rests c s₀ s) (hgo : c.goesOn s)
      (hround : c.round s = .ok (s', stop)) (hprice : s'.sqrtPriceX96 = s.sqrtPriceX96) : Rests c s₀ s'

/-- The initialized tick that a round crosses, if there is one. -/
def crossing (c : SwapCall) (s s' : SwapState) : List Int :=
  match nextInitializedTick c.ticks s.tickCurrent c.zeroForOne c.tickSearch with
  | .ok (found, true) => if s'.sqrtPriceX96 = sqrtRatio (clampTick found) then [clampTick found] else []
  | _ => []

/-- The states of a run, with the initialized ticks crossed on the way. -/
inductive Crosses (c : SwapCall) (s₀ : SwapState) : List Int → SwapState → Bool → Prop
  | start : Crosses c s₀ [] s₀ false
  | round {crossed : List Int} {s s' : SwapState} {stop : Bool} (h : Crosses c s₀ crossed s false) (hgo : c.goesOn s)
      (hround : c.round s = .ok (s', stop)) : Crosses c s₀ (crossed ++ c.crossing s s') s' stop

theorem Reaches.crosses (h : Reaches c s₀ s stop) : ∃ crossed, Crosses c s₀ crossed s stop := by
  induction h with
  | start => exact ⟨[], .start⟩
  | round _ hgo hround ih =>
    obtain ⟨crossed, hcrossed⟩ := ih
    exact ⟨_, .round hcrossed hgo hround⟩

theorem Crosses.reaches {crossed : List Int} (h : Crosses c s₀ crossed s stop) : Reaches c s₀ s stop := by
  induction h with
  | start => exact .start
  | round _ hgo hround ih => exact .round ih hgo hround

/-- The ticks between two current ticks, in the direction of the swap. -/
def Past (c : SwapCall) (a b k : Int) : Prop := if c.zeroForOne then b < k ∧ k ≤ a else a < k ∧ k ≤ b

/-! ## A round -/

variable {found : Int} {initialized : Bool} {step : SwapStep}

/-- A round that stops short of its tick and moves the price takes a tick on the way. -/
theorem Onward.between (hc : Consistent c s) (h : Onward c s s' stop found initialized step)
    (hshort : step.sqrtRatioNextX96 ≠ sqrtRatio (clampTick found)) (hmoved : step.sqrtRatioNextX96 ≠ s.sqrtPriceX96)
    {t : Int} (hmem : MIN_TICK ≤ t ∧ t < MAX_TICK) (hlow : sqrtRatio t ≤ step.sqrtRatioNextX96)
    (hhigh : step.sqrtRatioNextX96 < sqrtRatio (t + 1)) :
    if c.zeroForOne then clampTick found ≤ t ∧ t ≤ s.tickCurrent else s.tickCurrent ≤ t ∧ t < clampTick found := by
  have hside := h.ok.onSide
  have hnot := h.ok.notPast.trans (target_onSide c _)
  have hclamp := clampTick_mem found
  have htick := hc.mem
  cases hz : c.zeroForOne with
  | true =>
    rw [hz] at hside hnot
    have hside : step.sqrtRatioNextX96 ≤ s.sqrtPriceX96 := hside
    have hnot : sqrtRatio (clampTick found) ≤ step.sqrtRatioNextX96 := hnot
    rw [if_pos rfl]
    constructor
    · by_contra hgt
      have hmono := sqrtRatio_mono (s := t + 1) (t := clampTick found) (by omega) (by omega) hclamp.2
      omega
    · by_contra hgt
      have hmono := sqrtRatio_mono (s := s.tickCurrent + 1) (t := t) (by omega) (by omega) (by omega)
      have hprice := hc.high (by omega)
      omega
  | false =>
    rw [hz] at hside hnot
    have hside : s.sqrtPriceX96 ≤ step.sqrtRatioNextX96 := hside
    have hnot : step.sqrtRatioNextX96 ≤ sqrtRatio (clampTick found) := hnot
    rw [if_neg Bool.false_ne_true]
    constructor
    · by_contra hgt
      have hmono := sqrtRatio_mono (s := t + 1) (t := s.tickCurrent) (by omega) (by omega) htick.2
      have hprice := hc.low
      omega
    · by_contra hgt
      have hmono := sqrtRatio_mono (s := clampTick found) (t := t) hclamp.1 (by omega) (by omega)
      omega

/-- No initialized tick lies between the current tick and the one searched for. -/
theorem Onward.none_between (hg : Grounded c) (h : Onward c s s' stop found initialized step) {t k : Int} {v : Tick}
    (hk : c.ticks[k]? = some v)
    (ht : if c.zeroForOne then clampTick found ≤ t ∧ t ≤ s.tickCurrent else s.tickCurrent ≤ t ∧ t < clampTick found) :
    ¬c.Past s.tickCurrent t k := by
  have hkeys := hg.keys k v hk
  have hsearch := h.search
  unfold Past
  cases hz : c.zeroForOne with
  | true =>
    rw [hz] at hsearch
    rw [hz, if_pos rfl] at ht
    rw [if_pos rfl]
    rintro ⟨hlo, hhi⟩
    have hpass := (nextInitializedTick_down hsearch).2.2 hg.aligned k v hk hhi
    have hclamp := clampTick_le hpass
    rw [clampTick_of_mem hkeys] at hclamp
    omega
  | false =>
    rw [hz] at hsearch
    rw [hz, if_neg Bool.false_ne_true] at ht
    rw [if_neg Bool.false_ne_true]
    rintro ⟨hlo, hhi⟩
    have hpass := (nextInitializedTick_up hsearch).2 hg.aligned k v hk hlo
    have hclamp := clampTick_le hpass
    rw [clampTick_of_mem hkeys] at hclamp
    omega

/-- A round leaves a consistent state, and what it crosses is what is initialized between the two ticks. -/
structure Advances (c : SwapCall) (s s' : SwapState) : Prop where
  consistent : Consistent c s'
  onward : if c.zeroForOne then s'.tickCurrent ≤ s.tickCurrent else s.tickCurrent ≤ s'.tickCurrent
  crossed : ∀ k, k ∈ c.crossing s s' ↔ (∃ v, c.ticks[k]? = some v) ∧ c.Past s.tickCurrent s'.tickCurrent k

theorem crossing_pairwise (c : SwapCall) (s s' : SwapState) (r : Int → Int → Prop) : (c.crossing s s').Pairwise r := by
  unfold crossing
  split
  · split
    · exact List.pairwise_singleton _ _
    · exact List.Pairwise.nil
  · exact List.Pairwise.nil

/-- A round that does not reach its tick crosses nothing. -/
theorem Onward.crossing_short (h : Onward c s s' stop found initialized step)
    (hshort : step.sqrtRatioNextX96 ≠ sqrtRatio (clampTick found)) : c.crossing s s' = [] := by
  have hprice := h.ending.state.1
  unfold crossing
  rw [h.search]
  cases initialized with
  | true => exact if_neg (hprice ▸ hshort)
  | false => rfl

theorem Onward.advances_crossed (hg : Grounded c) (hc : Consistent c s) (h : Onward c s s' stop found initialized step)
    (hprice : step.sqrtRatioNextX96 = sqrtRatio (clampTick found)) : Advances c s s' := by
  obtain ⟨hfound, hcons, hprice', htick, -, hdown, -⟩ := h.crossed hg hc hprice
  have habove := h.above
  have hsearch := h.search
  have hcrossing : c.crossing s s' = if initialized then [found] else [] := by
    unfold crossing
    rw [hsearch]
    cases initialized with
    | true =>
      rw [hfound] at hprice'
      exact (if_pos hprice').trans (by rw [if_pos rfl, ← hfound])
    | false => rfl
  refine ⟨hcons, ?_, fun k => ?_⟩
  · rw [htick]
    split
    next hz => have := hdown hz; omega
    next hz => have := habove (Bool.not_eq_true _ ▸ hz); omega
  have hkey : k ∈ c.crossing s s' ↔ (∃ v, c.ticks[k]? = some v) ∧ k = found := by
    have hinit : initialized = true ↔ ∃ v, c.ticks[found]? = some v := by
      cases hz : c.zeroForOne with
      | true =>
        rw [hz] at hsearch
        exact (nextInitializedTick_down hsearch).2.1
      | false =>
        rw [hz] at hsearch
        have hlt := habove hz
        obtain ⟨-, hinit, -⟩ | ⟨heq, -⟩ := (nextInitializedTick_up hsearch).1
        · exact hinit
        · omega
    rw [hcrossing]
    cases initialized with
    | true =>
      simp only [if_true, List.mem_singleton]
      exact ⟨fun heq => ⟨heq ▸ hinit.1 rfl, heq⟩, And.right⟩
    | false =>
      simp only [Bool.false_eq_true, if_false, List.not_mem_nil, false_iff]
      rintro ⟨hv, rfl⟩
      exact Bool.false_ne_true (hinit.2 hv)
  rw [hkey, and_congr_right_iff]
  rintro ⟨v, hv⟩
  unfold Past
  rw [htick]
  cases hz : c.zeroForOne with
  | true =>
    rw [hz] at hsearch
    have hmem := hdown hz
    simp only [if_true]
    constructor
    · rintro rfl
      omega
    · rintro ⟨hlo, hhi⟩
      have hpass := (nextInitializedTick_down hsearch).2.2 hg.aligned k v hv hhi
      omega
  | false =>
    rw [hz] at hsearch
    have hlt := habove hz
    simp only [Bool.false_eq_true, if_false]
    constructor
    · rintro rfl
      omega
    · rintro ⟨hlo, hhi⟩
      have hpass := (nextInitializedTick_up hsearch).2 hg.aligned k v hv hlo
      omega

/-- A round to a tick between the current one and the one searched for. -/
theorem Onward.advances_short (hc : Consistent c s) (h : Onward c s s' stop found initialized step)
    (hshort : step.sqrtRatioNextX96 ≠ sqrtRatio (clampTick found)) (hliq : s'.liquidity = s.liquidity)
    (hmem : MIN_TICK ≤ s'.tickCurrent ∧ s'.tickCurrent ≤ MAX_TICK) (hlow : sqrtRatio s'.tickCurrent ≤ s'.sqrtPriceX96)
    (hhigh : s'.tickCurrent < MAX_TICK → s'.sqrtPriceX96 ≤ sqrtRatio (s'.tickCurrent + 1))
    (hnone : ∀ k v, c.ticks[k]? = some v → ¬c.Past s.tickCurrent s'.tickCurrent k)
    (honward : if c.zeroForOne then s'.tickCurrent ≤ s.tickCurrent else s.tickCurrent ≤ s'.tickCurrent) :
    Advances c s s' := by
  refine ⟨⟨hmem, hlow, hhigh, ?_⟩, honward, fun k => ?_⟩
  · rw [hliq, hc.liquidity]
    refine netsUpTo_congr fun k v hk => ?_
    have hk := hnone k v hk
    unfold Past at hk
    split at hk
    next hz => rw [if_pos hz] at honward; omega
    next hz => rw [if_neg hz] at honward; omega
  · rw [h.crossing_short hshort]
    simp only [List.not_mem_nil, false_iff]
    rintro ⟨⟨v, hv⟩, hpast⟩
    exact hnone k v hv hpast

/-- **A round keeps the price in the range of its tick**, and crosses what it goes past. -/
theorem Onward.advances (hg : Grounded c) (hc : Consistent c s) (h : Onward c s s' stop found initialized step) :
    Advances c s s' := by
  by_cases hprice : step.sqrtRatioNextX96 = sqrtRatio (clampTick found)
  · exact h.advances_crossed hg hc hprice
  have hfits := h.fits
  have hnext := h.ending.state.1
  have hend := h.ending
  cases hend with
  | crossed liquidity hcross _ => exact absurd hcross hprice
  | moved tick _ hmoved htick =>
    obtain ⟨hmem, hlow, hhigh⟩ := getTickAtSqrtRatio_spec (hnext ▸ hfits.price) htick
    have hbetween := h.between hc hprice hmoved hmem hlow hhigh
    refine h.advances_short hc hprice (account_liquidity step) ⟨hmem.1, hmem.2.le⟩ (hnext ▸ hlow)
      (fun _ => hnext ▸ hhigh.le) (fun k v hk => h.none_between hg hk hbetween) ?_
    split
    next hz => rw [if_pos hz] at hbetween; exact hbetween.2
    next hz => rw [if_neg hz] at hbetween; exact hbetween.1
  | stayed _ hstay =>
    have htick : (c.account s step).tickCurrent = s.tickCurrent := account_tick step
    refine h.advances_short hc hprice (account_liquidity step) (htick ▸ hc.mem) ?_ ?_ (fun k v hk => ?_) ?_
    · rw [htick, hnext, hstay]
      exact hc.low
    · rw [htick, hnext, hstay]
      exact hc.high
    · rw [htick]
      unfold Past
      split <;> omega
    · rw [htick]
      split <;> exact le_rfl

/-- A round that ends on the upper end of its range came down onto it, or did not move. -/
theorem Onward.rests (hg : Grounded c) (hc : Consistent c s) (hreach : Reaches c s₀ s false) (hgo : c.goesOn s)
    (hround : c.round s = .ok (s', stop)) (h : Onward c s s' stop found initialized step)
    (hbefore : s.tickCurrent < MAX_TICK → s.sqrtPriceX96 = sqrtRatio (s.tickCurrent + 1) → Rests c s₀ s)
    (hmax : s'.tickCurrent < MAX_TICK) (htop : s'.sqrtPriceX96 = sqrtRatio (s'.tickCurrent + 1)) : Rests c s₀ s' := by
  have hnext := h.ending.state.1
  have hsearch := h.search
  by_cases hprice : step.sqrtRatioNextX96 = sqrtRatio (clampTick found)
  · cases hz : c.zeroForOne with
    | true => exact .landed hreach hgo hround ⟨hz, found, initialized, hsearch, hnext.trans hprice⟩
    | false =>
      -- going up it is on the tick it crossed
      obtain ⟨hfound, hcons, hprice', htick, -⟩ := h.crossed hg hc hprice
      rw [hz, if_neg Bool.false_ne_true] at htick
      have hmem := hcons.mem
      rw [htick] at hmem hmax htop
      have hlt := sqrtRatio_strictMono hmem.1 (Int.lt_succ found) hmax
      change sqrtRatio found < sqrtRatio (found + 1) at hlt
      omega
  have hend := h.ending
  have hfits := h.fits
  cases hend with
  | crossed liquidity hcross _ => exact absurd hcross hprice
  | moved tick _ hmoved htick =>
    have hlt := (getTickAtSqrtRatio_spec (hnext ▸ hfits.price) htick).2.2
    rw [hnext] at htop
    exact absurd htop hlt.ne
  | stayed _ hstay =>
    have htick : (c.account s step).tickCurrent = s.tickCurrent := account_tick step
    rw [htick] at hmax htop
    rw [hnext, hstay] at htop
    exact .stayed (hbefore hmax htop) hgo hround (hnext.trans hstay)

/-! ## Over a run -/

/-- What holds of a state that a run gets to, and of the ticks crossed on the way. -/
structure Kept (c : SwapCall) (s₀ : SwapState) (crossed : List Int) (s : SwapState) : Prop where
  steady : Steady c s
  consistent : Consistent c s
  rests : s.tickCurrent < MAX_TICK → s.sqrtPriceX96 = sqrtRatio (s.tickCurrent + 1) → Rests c s₀ s
  onward : if c.zeroForOne then s.tickCurrent ≤ s₀.tickCurrent else s₀.tickCurrent ≤ s.tickCurrent
  once : crossed.Pairwise fun a b => if c.zeroForOne then b < a else a < b
  exact : ∀ k, k ∈ crossed ↔ (∃ v, c.ticks[k]? = some v) ∧ c.Past s₀.tickCurrent s.tickCurrent k

theorem Kept.round {crossed : List Int} (hg : Grounded c) (h : Kept c s₀ crossed s) (hreach : Reaches c s₀ s false)
    (hgo : c.goesOn s) (hround : c.round s = .ok (s', stop)) : Kept c s₀ (crossed ++ c.crossing s s') s' := by
  obtain ⟨found, initialized, step, ho⟩ := h.steady.onward hg hgo hround
  obtain ⟨hcons, honward, hcrossing⟩ := ho.advances hg h.consistent
  have hbefore := h.onward
  refine ⟨ho.steady hg h.steady hgo, hcons, ho.rests hg h.consistent hreach hgo hround h.rests, ?_, ?_, fun k => ?_⟩
  · split
    next hz => rw [if_pos hz] at hbefore honward; exact honward.trans hbefore
    next hz => rw [if_neg hz] at hbefore honward; exact hbefore.trans honward
  · rw [List.pairwise_append]
    refine ⟨h.once, crossing_pairwise c s s' _, fun a ha b hb => ?_⟩
    have hpast := ((h.exact a).1 ha).2
    have hpast' := ((hcrossing b).1 hb).2
    unfold Past at hpast hpast'
    split
    next hz => rw [if_pos hz] at hpast hpast'; omega
    next hz => rw [if_neg hz] at hpast hpast'; omega
  · rw [List.mem_append, h.exact, hcrossing, ← and_or_left, and_congr_right_iff]
    rintro -
    unfold Past
    split
    next hz => rw [if_pos hz] at hbefore honward; omega
    next hz => rw [if_neg hz] at hbefore honward; omega

theorem Crosses.kept {crossed : List Int} (hg : Grounded c) (h0 : Kept c s₀ [] s₀) (h : Crosses c s₀ crossed s stop) :
    Kept c s₀ crossed s := by
  induction h with
  | start => exact h0
  | round h hgo hround ih => exact ih.round hg h.reaches hgo hround

/-- The price is in the range of the tick, the liquidity is that of the range, and the ticks crossed are
those the current tick went past. -/
structure InRange (c : SwapCall) (s₀ : SwapState) (crossed : List Int) (s : SwapState) : Prop where
  low : ∃ a, getSqrtRatioAtTick s.tickCurrent = .ok a ∧ a ≤ s.sqrtPriceX96
  high : s.tickCurrent < MAX_TICK → ∃ b, getSqrtRatioAtTick (s.tickCurrent + 1) = .ok b ∧ s.sqrtPriceX96 ≤ b ∧
    (s.sqrtPriceX96 = b → Rests c s₀ s)
  liquidity : (s.liquidity : Int) = netsUpTo c.ticks s.tickCurrent
  once : crossed.Pairwise fun a b => if c.zeroForOne then b < a else a < b
  exact : ∀ k, k ∈ crossed ↔ (∃ v, c.ticks[k]? = some v) ∧ c.Past s₀.tickCurrent s.tickCurrent k

theorem Kept.inRange {crossed : List Int} (h : Kept c s₀ crossed s) : InRange c s₀ crossed s := by
  have hmem := h.consistent.mem
  refine ⟨⟨_, getSqrtRatioAtTick_eq hmem, h.consistent.low⟩, fun hmax => ?_, h.consistent.liquidity, h.once, h.exact⟩
  exact ⟨_, getSqrtRatioAtTick_eq ⟨by omega, by omega⟩, h.consistent.high hmax, h.rests hmax⟩

theorem kept_start (h : Steady c s₀) (hc : Consistent c s₀)
    (hfloor : s₀.tickCurrent < MAX_TICK → s₀.sqrtPriceX96 < sqrtRatio (s₀.tickCurrent + 1)) : Kept c s₀ [] s₀ := by
  refine ⟨h, hc, fun hmax htop => absurd htop (hfloor hmax).ne, ?_, List.Pairwise.nil, fun k => ?_⟩
  · split <;> exact le_rfl
  · simp only [List.not_mem_nil, false_iff]
    rintro ⟨-, hpast⟩
    unfold Past at hpast
    split at hpast <;> omega

end SwapCall

/-- **The loop's invariant.** From a well-formed state, in every state that the loop gets to and at every
exit: the price is in the range of the current tick, on its upper end only where a downward step that
reached its tick left it; the liquidity is the sum of the nets up to the tick; and no initialized tick
is skipped or crossed twice. -/
theorem v3Swap_inRange {fee price liquidity : Nat} {tick tickSpacing : Int} {ticks : TickMap} {search : TickSearch}
    {zeroForOne : Bool} {amount : Int} {limit : Option Nat} (hwf : WellFormed price tick liquidity ticks tickSpacing)
    (hsearch : search = .wordBounded tickSpacing ∨ search = .nextInitialized) (hfee : fee < MAX_FEE)
    (ha : -2 ^ 255 ≤ amount ∧ amount < 2 ^ 255) :
    let c : SwapCall := ⟨fee, ticks, search, zeroForOne,
      limit.getD (if zeroForOne then MIN_SQRT_RATIO + 1 else MAX_SQRT_RATIO - 1), decide (amount ≥ 0)⟩
    let s₀ : SwapState := ⟨amount, 0, price, tick, liquidity⟩
    (c.checkLimit price = .ok () → ∀ crossed s stop, c.Crosses s₀ crossed s stop → c.InRange s₀ crossed s) ∧
      ∀ fuel s, v3Swap fuel fee price tick liquidity ticks search zeroForOne amount limit = .ok s →
        ∃ crossed stop, c.Crosses s₀ crossed s stop ∧ c.InRange s₀ crossed s := by
  intro c s₀
  have hrun : c.checkLimit price = .ok () → ∀ crossed s stop, c.Crosses s₀ crossed s stop → c.InRange s₀ crossed s := by
    intro hcheck crossed s stop h
    obtain ⟨hg, hs⟩ := SwapCall.steady_start hwf hsearch hfee ha hcheck
    obtain ⟨hmem, hlow, hhigh⟩ := hwf.floor
    have hc : SwapCall.Consistent c s₀ := ⟨hmem, hlow, fun hmax => (hhigh hmax).le, hwf.liquidity_eq⟩
    exact (h.kept hg (SwapCall.kept_start hs hc hhigh)).inRange
  refine ⟨hrun, fun fuel s h => ?_⟩
  obtain ⟨_, rfl, hcheck, hloop⟩ := SwapCall.v3Swap_ok h
  obtain ⟨stop, hreach, -⟩ := SwapCall.loop_reaches .start hloop
  obtain ⟨crossed, hcrosses⟩ := hreach.crosses
  exact ⟨crossed, stop, hcrosses, hrun hcheck crossed s stop hcrosses⟩

/-- Two positions, the lower end of the one inside the other. -/
def twoRanges : TickMap :=
  (((∅ : TickMap).insert (-120) ⟨-120, 10 ^ 18, 10 ^ 18⟩).insert (-60) ⟨-60, 10 ^ 18, 10 ^ 18⟩).insert 60
    ⟨60, -2 * 10 ^ 18, 2 * 10 ^ 18⟩

theorem twoRanges_wellFormed : WellFormed (2 ^ 96) 0 (2 * 10 ^ 18) twoRanges 60 := by
  have hkeys : ∀ k v, twoRanges[k]? = some v → k = 60 ∨ k = -60 ∨ k = -120 := fun k v hk => by
    unfold twoRanges at hk
    rw [Ranges.lookup_insert, Ranges.lookup_insert, Ranges.lookup_insert] at hk
    split at hk
    · exact .inl ‹_›
    split at hk
    · exact .inr (.inl ‹_›)
    split at hk
    · exact .inr (.inr ‹_›)
    · simp at hk
  have hbounds : MIN_TICK ≤ -120 ∧ (60 : Int) ≤ MAX_TICK := by decide
  refine ⟨by decide, by decide, ⟨by decide, by decide +kernel, fun _ => by decide +kernel⟩,
    ⟨fun k v hk => ?_, by decide +kernel⟩, by decide +kernel⟩
  rcases hkeys k v hk with rfl | rfl | rfl <;> omega

/-- Token 0 in, one more than it takes to the lower end of the inner position, which the fee of the last
step takes. -/
theorem v3Swap_inRange_down :
    ∃ crossed stop, SwapCall.Crosses ⟨500, twoRanges, .nextInitialized, true, MIN_SQRT_RATIO + 1, true⟩
        ⟨6011713982475091, 0, 2 ^ 96, 0, 2 * 10 ^ 18⟩ crossed
        ⟨0, -5990709911821561, 78990846045029531151608375686, -61, 10 ^ 18⟩ stop ∧
      SwapCall.InRange ⟨500, twoRanges, .nextInitialized, true, MIN_SQRT_RATIO + 1, true⟩
        ⟨6011713982475091, 0, 2 ^ 96, 0, 2 * 10 ^ 18⟩ crossed
        ⟨0, -5990709911821561, 78990846045029531151608375686, -61, 10 ^ 18⟩ := by
  have hrun : v3Swap 10 500 (2 ^ 96) 0 (2 * 10 ^ 18) twoRanges .nextInitialized true 6011713982475091 none =
      .ok ⟨0, -5990709911821561, 78990846045029531151608375686, -61, 10 ^ 18⟩ := by decide +kernel
  exact (v3Swap_inRange twoRanges_wellFormed (.inr rfl) (by decide) (by decide)).2 10 _ hrun

/-- There the price is on the upper end of its range after a step that reached nothing. -/
theorem v3Swap_inRange_fails :
    WellFormed (2 ^ 96) 0 (2 * 10 ^ 18) twoRanges 60 ∧
      ∃ (c : SwapCall) (s s' : SwapState), c = ⟨500, twoRanges, .nextInitialized, true, MIN_SQRT_RATIO + 1, true⟩ ∧
        c.Reaches ⟨6011713982475091, 0, 2 ^ 96, 0, 2 * 10 ^ 18⟩ s false ∧ c.goesOn s ∧ c.round s = .ok (s', false) ∧
        v3Swap 10 500 (2 ^ 96) 0 (2 * 10 ^ 18) twoRanges .nextInitialized true 6011713982475091 none = .ok s' ∧
        getSqrtRatioAtTick (s'.tickCurrent + 1) = .ok s'.sqrtPriceX96 ∧ ¬c.LandsDown s s' := by
  refine ⟨twoRanges_wellFormed, _, ⟨1, -5990709911821561, 78990846045029531151608375686, -61, 10 ^ 18⟩,
    ⟨0, -5990709911821561, 78990846045029531151608375686, -61, 10 ^ 18⟩, rfl, ?_, by decide, by decide +kernel,
    by decide +kernel, by decide +kernel, ?_⟩
  · exact .round .start (by decide) (by decide +kernel)
  · rintro ⟨-, found, initialized, hfound, hprice⟩
    have hnext : nextInitializedTick twoRanges (-61) true .nextInitialized = .ok (-120, true) := by decide +kernel
    cases hnext.symm.trans hfound
    exact absurd hprice (by decide +kernel)

end EvmDexPool.V3

import EvmDexPool.Lib.Densities
import EvmDexPool.V3.ExactAmounts
import EvmDexPool.V3.InRange
import EvmDexPool.V3.Monotone
import Mathlib.Algebra.BigOperators.Ring.Finset
import Mathlib.Tactic.Linarith

/-!
# There and back

What a pool holds of each token up to a price is the content of its liquidity, by a gauge for each
token (`holdings`). A run takes in at least what the holdings of its input token grow by and gives at
most what those of its output token shrink by (`Metered`), and on the way both rise with the price or
rest together. So a second run the other way, with what the first gave out, gets back behind the first
one's start at most where there is no liquidity, and is paid no more than the first took
(`thereAndBack_loses`).
-/

namespace EvmDexPool.V3

open Densities

/-- The measure of a price that the amounts of a token go by: the amount between two prices is the
liquidity times the difference. -/
def gauge (token0 : Bool) (price : Nat) : ℚ := if token0 then -(2 ^ 96 / price) else price / 2 ^ 96

/-- What the ticks hold of a token up to a price, up to a constant. -/
def holdings (m : TickMap) (token0 : Bool) (price : Nat) : ℚ :=
  content m sqrtRatio (fun t => (t.liquidityNet : ℚ)) (gauge token0) price

/-- What the holdings of the input token grow by as the price moves. -/
def curveInput (m : TickMap) (zeroForOne : Bool) (price stop : Nat) : ℚ :=
  if zeroForOne then holdings m true price - holdings m true stop else holdings m false stop - holdings m false price

/-- What the holdings of the output token shrink by as the price moves. -/
def curveOutput (m : TickMap) (zeroForOne : Bool) (price stop : Nat) : ℚ :=
  if zeroForOne then holdings m false price - holdings m false stop else holdings m true stop - holdings m true price

section Gauge
variable {token0 : Bool} {x y : Nat}

theorem gauge_strictMonoOn (token0 : Bool) (hx : 0 < x) : StrictMonoOn (gauge token0) (Set.Icc x y) := by
  intro u hu v hv huv
  have hu0 : (0 : ℚ) < u := by exact_mod_cast hx.trans_le hu.1
  have huv' : (u : ℚ) < v := by exact_mod_cast huv
  unfold gauge
  split
  · exact neg_lt_neg (div_lt_div_of_pos_left (by positivity) hu0 huv')
  · exact div_lt_div_of_pos_right huv' (by positivity)

theorem exactToken0_gauge (liquidity low high : Nat) :
    exactToken0 liquidity low high = liquidity * (gauge true high - gauge true low) := by
  unfold exactToken0 gauge
  simp only [if_true]
  ring

theorem exactToken1_gauge (liquidity low high : Nat) :
    exactToken1 liquidity low high = liquidity * (gauge false high - gauge false low) := by
  unfold exactToken1 gauge
  simp only [Bool.false_eq_true, if_false]
  ring

end Gauge

/-! ## A stretch without a tick inside -/

section Stretch
variable {m : TickMap} {tick : Int} {liquidity x y : Nat}

theorem netsUpTo_cast (m : TickMap) (tick : Int) :
    Ranges.sumRange m (fun k => k ≤ tick) (fun _ t => (t.liquidityNet : ℚ)) = (netsUpTo m tick : ℚ) := by
  unfold netsUpTo Ranges.sumRange
  rw [Int.cast_list_sum, List.map_map]
  rfl

variable (hclear : Clear m sqrtRatio (fun k => decide (k ≤ tick)) x y) (hliq : (liquidity : Int) = netsUpTo m tick)
include hclear hliq

theorem holdings_sub (token0 : Bool) (hxy : x ≤ y) :
    holdings m token0 y - holdings m token0 x = liquidity * (gauge token0 y - gauge token0 x) := by
  unfold holdings
  rw [content_sub hxy hclear, netsUpTo_cast, ← hliq]
  rfl

theorem holdings_risesOn (token0 : Bool) (hx : 0 < x) :
    RisesOn (holdings m token0) (holdings m !token0) (Set.Icc x y) := by
  refine content_risesOn hclear ?_ (gauge_strictMonoOn _ hx) (gauge_strictMonoOn _ hx)
  rw [netsUpTo_cast, ← hliq]
  exact_mod_cast Nat.zero_le _

end Stretch

/-! ## A round -/

namespace SwapCall

variable {c : SwapCall} {s s' s₀ : SwapState} {stop : Bool} {found : Int} {initialized : Bool} {step : SwapStep}

/-- No tick's price is inside the stretch that a round's step takes. -/
theorem Onward.clear (hg : Grounded c) (hc : Consistent c s) (h : Onward c s s' stop found initialized step) :
    Clear c.ticks sqrtRatio (fun k => decide (k ≤ s.tickCurrent)) (min s.sqrtPriceX96 step.sqrtRatioNextX96)
      (max s.sqrtPriceX96 step.sqrtRatioNextX96) := by
  have hside := h.ok.onSide
  have hnot := h.ok.notPast.trans (target_onSide c _)
  have hsearch := h.search
  have htick := hc.mem
  have hclamp := clampTick_mem found
  -- a tick above the current one has a price that the range of the current one does not pass
  have habove : ∀ k v, c.ticks[k]? = some v → s.tickCurrent < k → s.sqrtPriceX96 ≤ sqrtRatio k := fun k v hk hlt => by
    have hkeys := hg.keys k v hk
    exact (hc.high (by omega)).trans (sqrtRatio_mono (by omega) hlt hkeys.2)
  have hbelow : ∀ k v, c.ticks[k]? = some v → k ≤ s.tickCurrent → sqrtRatio k ≤ s.sqrtPriceX96 := fun k v hk hle =>
    (sqrtRatio_mono (hg.keys k v hk).1 hle htick.2).trans hc.low
  cases hz : c.zeroForOne with
  | true =>
    rw [hz] at hside hnot hsearch
    have hside : step.sqrtRatioNextX96 ≤ s.sqrtPriceX96 := hside
    have hnot : sqrtRatio (clampTick found) ≤ step.sqrtRatioNextX96 := hnot
    rw [min_eq_right hside, max_eq_left hside]
    refine ⟨fun k v hk hb => ?_, fun k v hk hb => habove k v hk (by simpa using hb)⟩
    have hpass := clampTick_le ((nextInitializedTick_down hsearch).2.2 hg.aligned k v hk (by simpa using hb))
    rw [clampTick_of_mem (hg.keys k v hk)] at hpass
    exact (sqrtRatio_mono (hg.keys k v hk).1 hpass hclamp.2).trans hnot
  | false =>
    rw [hz] at hside hnot hsearch
    have hside : s.sqrtPriceX96 ≤ step.sqrtRatioNextX96 := hside
    have hnot : step.sqrtRatioNextX96 ≤ sqrtRatio (clampTick found) := hnot
    rw [min_eq_left hside, max_eq_right hside]
    refine ⟨fun k v hk hb => hbelow k v hk (by simpa using hb), fun k v hk hb => ?_⟩
    have hpass := clampTick_le ((nextInitializedTick_up hsearch).2 hg.aligned k v hk (by simpa using hb))
    rw [clampTick_of_mem (hg.keys k v hk)] at hpass
    exact hnot.trans (sqrtRatio_mono hclamp.1 hpass (hg.keys k v hk).2)

/-- The exact amounts of a round's step are what the holdings change by. -/
theorem Onward.curve (hg : Grounded c) (hc : Consistent c s) (h : Onward c s s' stop found initialized step) :
    V3.exactInput c.zeroForOne s.liquidity s.sqrtPriceX96 step.sqrtRatioNextX96 =
        curveInput c.ticks c.zeroForOne s.sqrtPriceX96 step.sqrtRatioNextX96 ∧
      exactOutput c.zeroForOne s.liquidity s.sqrtPriceX96 step.sqrtRatioNextX96 =
        curveOutput c.ticks c.zeroForOne s.sqrtPriceX96 step.sqrtRatioNextX96 := by
  have hclear := h.clear hg hc
  have hside := h.ok.onSide
  unfold V3.exactInput exactOutput curveInput curveOutput
  rw [exactToken0_gauge, exactToken1_gauge, exactToken0_gauge, exactToken1_gauge]
  cases hz : c.zeroForOne with
  | true =>
    rw [hz] at hside
    have hside : step.sqrtRatioNextX96 ≤ s.sqrtPriceX96 := hside
    rw [min_eq_right hside, max_eq_left hside] at hclear
    simp only [if_true]
    exact ⟨(holdings_sub hclear hc.liquidity true hside).symm, (holdings_sub hclear hc.liquidity false hside).symm⟩
  | false =>
    rw [hz] at hside
    have hside : s.sqrtPriceX96 ≤ step.sqrtRatioNextX96 := hside
    rw [min_eq_left hside, max_eq_right hside] at hclear
    simp only [Bool.false_eq_true, if_false]
    exact ⟨(holdings_sub hclear hc.liquidity false hside).symm, (holdings_sub hclear hc.liquidity true hside).symm⟩

/-! ## Over a run -/

/-- The stretch of prices between two. -/
def stretch (price stop : Nat) : Set Nat := Set.Icc (min price stop) (max price stop)

theorem curveInput_add (m : TickMap) (zeroForOne : Bool) (x y z : Nat) :
    curveInput m zeroForOne x y + curveInput m zeroForOne y z = curveInput m zeroForOne x z := by
  unfold curveInput
  split <;> ring

theorem curveOutput_add (m : TickMap) (zeroForOne : Bool) (x y z : Nat) :
    curveOutput m zeroForOne x y + curveOutput m zeroForOne y z = curveOutput m zeroForOne x z := by
  unfold curveOutput
  split <;> ring

/-- What an exact-input run has taken in and given out, against the holdings. -/
structure Metered (c : SwapCall) (s₀ s : SwapState) (n : Nat) : Prop where
  steady : Steady c s
  consistent : Consistent c s
  paid : Paid c s₀ s n
  onSide : OnSide c.zeroForOne s₀.sqrtPriceX96 s.sqrtPriceX96
  taken : curveInput c.ticks c.zeroForOne s₀.sqrtPriceX96 s.sqrtPriceX96 ≤
    ((s₀.amountSpecifiedRemaining - s.amountSpecifiedRemaining : Int) : ℚ)
  given : (n : ℚ) ≤ curveOutput c.ticks c.zeroForOne s₀.sqrtPriceX96 s.sqrtPriceX96
  rises : RisesOn (holdings c.ticks true) (holdings c.ticks false) (stretch s₀.sqrtPriceX96 s.sqrtPriceX96)

theorem risesOn_join {m : TickMap} {zeroForOne : Bool} {x y z : Nat} (hxy : OnSide zeroForOne x y) (hyz : OnSide zeroForOne y z)
    (h : RisesOn (holdings m true) (holdings m false) (stretch x y))
    (h' : RisesOn (holdings m true) (holdings m false) (stretch y z)) :
    RisesOn (holdings m true) (holdings m false) (stretch x z) := by
  have hxz := hxy.trans hyz
  unfold stretch at *
  cases zeroForOne with
  | true =>
    rw [min_eq_right hxy, max_eq_left hxy] at h
    rw [min_eq_right hyz, max_eq_left hyz] at h'
    rw [min_eq_right hxz, max_eq_left hxz]
    exact h'.join h
  | false =>
    rw [min_eq_left hxy, max_eq_right hxy] at h
    rw [min_eq_left hyz, max_eq_right hyz] at h'
    rw [min_eq_left hxz, max_eq_right hxz]
    exact h.join h'

theorem Metered.round (hg : Grounded c) (hin : c.exactInput) (hp : s₀.sqrtPriceX96 < 2 ^ 160) {n : Nat}
    (h : Metered c s₀ s n) (hgo : c.goesOn s) (hround : c.round s = .ok (s', stop)) : ∃ n', Metered c s₀ s' n' := by
  obtain ⟨found, initialized, step, ho⟩ := h.steady.onward hg hgo hround
  obtain ⟨hprice, hrem, -⟩ := ho.ending.state
  have hc := h.consistent
  have hfits := h.steady.fits
  obtain ⟨hcurveIn, hcurveOut⟩ := ho.curve hg hc
  have hmem := onSide_mem ho.ok.onSide ho.ok.notPast
  have htarget := (hg.target_mem found).1
  have hpos := ho.pos
  have hnext : 0 < step.sqrtRatioNextX96 := by omega
  have hcovers := (covers_iff hpos hnext ho.ok.onSide).1 ho.ok.covers
  have hpays := (pays_iff hpos hnext ho.ok.onSide).1 ho.ok.pays
  have hspent := (account_remaining hfits.remaining hgo.1 ho.ok).1
  rw [if_pos hin, ← hrem] at hspent
  have htaken := h.taken
  have hgiven := h.given
  refine ⟨n + step.amountOut, ho.steady hg h.steady hgo, (ho.advances hg hc).consistent, ho.paid hg hin hp hfits h.paid, ?_, ?_, ?_, ?_⟩
  · rw [hprice]
    exact h.onSide.trans ho.ok.onSide
  · rw [hprice, ← curveInput_add _ _ _ s.sqrtPriceX96, ← hcurveIn, hspent]
    have hfee : (0 : ℚ) ≤ step.feeAmount := Nat.cast_nonneg _
    push_cast at htaken ⊢
    linarith
  · rw [hprice, ← curveOutput_add _ _ _ s.sqrtPriceX96, ← hcurveOut]
    push_cast
    linarith
  · rw [hprice]
    exact risesOn_join h.onSide ho.ok.onSide h.rises (holdings_risesOn (ho.clear hg hc) hc.liquidity true (by omega))

/-- **A run against the holdings.** -/
theorem loop_metered (hg : Grounded c) (hin : c.exactInput) {fuel : Nat} (hs : Steady c s₀) (hc : Consistent c s₀)
    (h0 : s₀.amountCalculated = 0) (h : c.loop fuel s₀ = .ok s) : ∃ n, Metered c s₀ s n := by
  have hstart : Metered c s₀ s₀ 0 := by
    refine ⟨hs, hc, ⟨by rw [h0]; rfl, by omega⟩, onSide_refl _ _, ?_, ?_, ?_⟩
    · unfold curveInput
      split <;> simp
    · unfold curveOutput
      split <;> simp
    · intro x hx y hy _
      unfold stretch at hx hy
      rw [min_self, max_self, Set.Icc_self, Set.mem_singleton_iff] at hx hy
      rw [hx, hy]
      exact .inl ⟨rfl, rfl⟩
  obtain ⟨-, hm, -⟩ := loop_ok (I := fun s _ => ∃ n, Metered c s₀ s n) h ⟨0, hstart⟩
    fun s s' stop ⟨n, hn⟩ hgo hround => hn.round hg hin hs.fits.price hgo hround
  exact hm

end SwapCall

/-! ## The way back -/

theorem curveInput_back (m : TickMap) (zeroForOne : Bool) (price stop : Nat) :
    curveInput m (!zeroForOne) price stop = curveOutput m zeroForOne stop price := by
  cases zeroForOne <;> rfl

theorem curveOutput_back (m : TickMap) (zeroForOne : Bool) (price stop : Nat) :
    curveOutput m (!zeroForOne) price stop = curveInput m zeroForOne stop price := by
  cases zeroForOne <;> rfl

/-- Of two moves to one price, the one that gives no more also asks no more. -/
theorem curveInput_le {m : TickMap} {zeroForOne : Bool} {x y z : Nat}
    (hrises : RisesOn (holdings m true) (holdings m false) (SwapCall.stretch x y))
    (h : curveOutput m zeroForOne x z ≤ curveOutput m zeroForOne y z) :
    curveInput m zeroForOne x z ≤ curveInput m zeroForOne y z := by
  have hx : x ∈ SwapCall.stretch x y := ⟨min_le_left _ _, le_max_left _ _⟩
  have hy : y ∈ SwapCall.stretch x y := ⟨min_le_right _ _, le_max_right _ _⟩
  unfold curveInput curveOutput at *
  cases zeroForOne with
  | true =>
    simp only [if_true] at h ⊢
    have hle := hrises.le_of_le hx hy (by linarith)
    linarith
  | false =>
    simp only [Bool.false_eq_true, if_false] at h ⊢
    have hle := hrises.swap.le_of_le hy hx (by linarith)
    linarith

/-- Two moves of opposite directions, one from where the other ended, cover the stretch between their ends. -/
theorem stretch_back {zeroForOne : Bool} {x y z : Nat} (hxy : OnSide zeroForOne x y) (hyz : OnSide (!zeroForOne) y z) :
    SwapCall.stretch z x ⊆ SwapCall.stretch x y ∨ SwapCall.stretch z x ⊆ SwapCall.stretch y z := by
  unfold SwapCall.stretch
  cases zeroForOne with
  | true =>
    have hxy : y ≤ x := hxy
    have hyz : y ≤ z := hyz
    rcases le_total z x with h | h
    · exact .inl (Set.Icc_subset_Icc (by omega) (by omega))
    · exact .inr (Set.Icc_subset_Icc (by omega) (by omega))
  | false =>
    have hxy : x ≤ y := hxy
    have hyz : z ≤ y := hyz
    rcases le_total z x with h | h
    · exact .inr (Set.Icc_subset_Icc (by omega) (by omega))
    · exact .inl (Set.Icc_subset_Icc (by omega) (by omega))

namespace SwapCall

variable {c c' : SwapCall} {s u : SwapState}

/-- Consistency is about the ticks and the state's place on them. -/
theorem Consistent.turn (h : Consistent c s) (hticks : c'.ticks = c.ticks) (hb : Beside u s) : Consistent c' u := by
  obtain ⟨hprice, htick, hliq⟩ := hb
  obtain ⟨hmem, hlow, hhigh, hsum⟩ := h
  rw [← htick] at hmem hlow hhigh hsum
  rw [← hprice] at hlow hhigh
  rw [← hliq, ← hticks] at hsum
  exact ⟨hmem, hlow, hhigh, hsum⟩

/-- A run the other way over the same ticks, from where a run ended and with what it gave, is paid no more than
the first one took. -/
theorem Metered.back {s₀ u₀ : SwapState} {n n' : Nat} (h : Metered c s₀ s n) (h' : Metered c' u₀ u n')
    (hticks : c'.ticks = c.ticks) (hdir : c'.zeroForOne = !c.zeroForOne) (hstart : u₀.sqrtPriceX96 = s.sqrtPriceX96)
    (hamount : u₀.amountSpecifiedRemaining = n) (hleft : 0 ≤ u.amountSpecifiedRemaining) :
    (n' : Int) ≤ s₀.amountSpecifiedRemaining - s.amountSpecifiedRemaining := by
  have hon := h'.onSide
  have htaken := h'.taken
  have hgiven := h'.given
  have hrises := h'.rises
  rw [hdir, hstart] at hon
  rw [hticks, hdir, hstart, curveInput_back, hamount] at htaken
  rw [hticks, hdir, hstart, curveOutput_back] at hgiven
  rw [hticks, hstart] at hrises
  have hall : RisesOn (holdings c.ticks true) (holdings c.ticks false) (stretch u.sqrtPriceX96 s₀.sqrtPriceX96) := by
    rcases stretch_back h.onSide hon with hsub | hsub
    · exact h.rises.mono hsub
    · exact hrises.mono hsub
  have hspent : curveOutput c.ticks c.zeroForOne u.sqrtPriceX96 s.sqrtPriceX96 ≤
      curveOutput c.ticks c.zeroForOne s₀.sqrtPriceX96 s.sqrtPriceX96 := by
    have hpaid := h.given
    have hnonneg : (0 : ℚ) ≤ u.amountSpecifiedRemaining := by exact_mod_cast hleft
    push_cast at htaken
    linarith
  have hcurve := curveInput_le hall hspent
  have hfirst := h.taken
  exact_mod_cast (hgiven.trans hcurve).trans hfirst

/-- A call over the same ticks, from a price that its limit accepts. -/
theorem Grounded.turn (hg : Grounded c) (hticks : c'.ticks = c.ticks) (hsearch : c'.tickSearch = c.tickSearch)
    (hfee : c'.fee = c.fee) (hs : Fits c s) (hcheck : c'.checkLimit s.sqrtPriceX96 = .ok ()) : Grounded c' := by
  refine ⟨accepted_of_checkLimit (hfee ▸ hg.fee) hs.price hcheck, ?_, ?_, ?_⟩
  · rw [hticks, hsearch]
    exact hg.aligned
  · rw [hticks]
    exact hg.keys
  · rw [hticks]
    exact hg.cancel

/-- A call starts steadily from a consistent state that its limit accepts. -/
theorem Consistent.steady (h : Consistent c s) (hs : Fits c s) (hcheck : c.checkLimit s.sqrtPriceX96 = .ok ()) :
    Steady c s := by
  have hlimit := checkLimit_ok.1 hcheck
  refine ⟨hs, ?_, fun _ => h⟩
  unfold Within OnSide
  split at hlimit
  · rw [if_pos ‹_›]
    exact hlimit.2.le
  · rw [if_neg ‹_›]
    exact hlimit.2.le

end SwapCall

/-- **A swap there and back is paid no more than it took.** -/
theorem thereAndBack_loses {fuel fuel' fee price liquidity a : Nat} {tick tickSpacing : Int} {ticks : TickMap}
    {zeroForOne : Bool} {limit limit' : Option Nat} {s s' : SwapState}
    (hwf : WellFormed price tick liquidity ticks tickSpacing) (hfee : fee < MAX_FEE) (ha : a < 2 ^ 255)
    (h : v3Swap fuel fee price tick liquidity ticks (.wordBounded tickSpacing) zeroForOne a limit = .ok s)
    (h' : v3Swap fuel' fee s.sqrtPriceX96 s.tickCurrent s.liquidity ticks (.wordBounded tickSpacing) (!zeroForOne)
      s.amountCalculated.natAbs limit' = .ok s') :
    s'.amountCalculated.natAbs ≤ a := by
  obtain ⟨c, hc, hcheck, hloop⟩ := SwapCall.v3Swap_ok h
  obtain ⟨c', hc', hcheck', hloop'⟩ := SwapCall.v3Swap_ok h'
  have hmode : c.exactInput := by
    rw [hc]
    exact decide_eq_true (Int.natCast_nonneg a)
  have hmode' : c'.exactInput := by
    rw [hc']
    exact decide_eq_true (Int.natCast_nonneg s.amountCalculated.natAbs)
  obtain ⟨hg, hs⟩ := SwapCall.steady_start hwf (.inl rfl) hfee (by omega) (hc ▸ hcheck)
  rw [← hc] at hg hs
  have hcons : c.Consistent ⟨a, 0, price, tick, liquidity⟩ := by
    obtain ⟨hmem, hlow, hhigh⟩ := hwf.floor
    exact ⟨hmem, hlow, fun hmax => (hhigh hmax).le, hc ▸ hwf.liquidity_eq⟩
  obtain ⟨n, hn⟩ := SwapCall.loop_metered hg hmode hs hcons rfl hloop
  have hout : s.amountCalculated.natAbs = n := by rw [hn.paid.calculated, Int.natAbs_neg, Int.natAbs_natCast]
  have hlt : n < 2 ^ 225 := by
    have hroom := hn.paid.room
    have hmost : outputRoom c.zeroForOne price < 2 ^ 225 := outputRoom_lt hwf.price_lt
    dsimp only at hroom
    omega
  -- the second call starts where the first one ended
  have hticks : c'.ticks = c.ticks := by rw [hc, hc']
  have hfits := hn.steady.fits
  have hg' := hg.turn hticks (by rw [hc, hc']) (by rw [hc, hc']) hfits hcheck'
  have hcons' : c'.Consistent ⟨s.amountCalculated.natAbs, 0, s.sqrtPriceX96, s.tickCurrent, s.liquidity⟩ :=
    hn.consistent.turn hticks ⟨rfl, rfl, rfl⟩
  have hfits' : c'.Fits ⟨s.amountCalculated.natAbs, 0, s.sqrtPriceX96, s.tickCurrent, s.liquidity⟩ := by
    rw [hc']
    exact SwapCall.fits_start hfits.price hfits.liquidity (by omega)
  obtain ⟨n', hn'⟩ := SwapCall.loop_metered hg' hmode' (hcons'.steady hfits' hcheck') hcons' rfl hloop'
  have hback := hn.back hn' hticks (by rw [hc, hc']) rfl (congrArg Nat.cast hout) (hn'.steady.fits.remaining.nonneg hmode')
  have hleft := hfits.remaining.nonneg hmode
  rw [hn'.paid.calculated, Int.natAbs_neg, Int.natAbs_natCast]
  dsimp only at hback
  omega

/-- Down across the lower tick of a position, and back up across it. -/
theorem thereAndBack_loses_crossing : ∃ s s',
    v3Swap 10 500 (2 ^ 96) 0 (2 * 10 ^ 18) twoRanges (.wordBounded 60) true 8011713982475091 none = .ok s ∧
      v3Swap 10 500 s.sqrtPriceX96 s.tickCurrent s.liquidity twoRanges (.wordBounded 60) false s.amountCalculated.natAbs
        none = .ok s' ∧
      s.tickCurrent = -100 ∧ s'.tickCurrent = -1 ∧ s'.amountCalculated.natAbs ≤ 8011713982475091 := by
  have hthere : v3Swap 10 500 (2 ^ 96) 0 (2 * 10 ^ 18) twoRanges (.wordBounded 60) true 8011713982475091 none =
      .ok ⟨0, -7973800094940205, 78833729453720964996035947081, -100, 10 ^ 18⟩ := by decide +kernel
  have hback : v3Swap 10 500 78833729453720964996035947081 (-100) (10 ^ 18) twoRanges (.wordBounded 60) false
      (7973800094940205 : Nat) none =
      .ok ⟨0, -8003721217488675, 79228004576881892938958598835, -1, 2 * 10 ^ 18⟩ := by decide +kernel
  exact ⟨_, _, hthere, hback, rfl, rfl,
    thereAndBack_loses twoRanges_wellFormed (by decide) (by decide) hthere hback⟩

end EvmDexPool.V3

import EvmDexPool.V3.Charges
import EvmDexPool.V3.ThereAndBack

/-!
# Trades on one pool, one after the other

A call of `v3_swap`, in either direction and either mode, takes in at least what the holdings of the one token grow by
and gives at most what those of the other shrink by (`Traded`). So over any calls, each from where the one before ended, the
pool's balances gain at least what its holdings do, and these rise with the price or rest together: whoever trades
comes out ahead in neither token without having paid in the other (`trades_noGain`).
-/

namespace EvmDexPool.V3

open Densities

namespace SwapCall

variable {c : SwapCall} {s s' s₀ : SwapState} {stop : Bool} {found : Int} {initialized : Bool} {step : SwapStep}

/-- The books of a run: what it was paid has left the amount asked for, or what it gave has. -/
def Booked (c : SwapCall) (s₀ s : SwapState) (paid got : Nat) : Prop :=
  if c.exactInput then s.amountSpecifiedRemaining = s₀.amountSpecifiedRemaining - paid ∧ Paid c s₀ s got
  else s.amountSpecifiedRemaining = s₀.amountSpecifiedRemaining + got ∧ Charged c (2 ^ 238) s paid

/-- What a run of either mode has taken in and given out, against the holdings. -/
structure Traded (c : SwapCall) (s₀ s : SwapState) (paid got : Nat) : Prop where
  steady : Steady c s
  consistent : Consistent c s
  booked : Booked c s₀ s paid got
  onSide : OnSide c.zeroForOne s₀.sqrtPriceX96 s.sqrtPriceX96
  taken : curveInput c.ticks c.zeroForOne s₀.sqrtPriceX96 s.sqrtPriceX96 ≤ paid
  given : (got : ℚ) ≤ curveOutput c.ticks c.zeroForOne s₀.sqrtPriceX96 s.sqrtPriceX96
  rises : RisesOn (holdings c.ticks true) (holdings c.ticks false) (stretch s₀.sqrtPriceX96 s.sqrtPriceX96)

theorem Onward.booked (hg : Grounded c) (hp : s₀.sqrtPriceX96 < 2 ^ 160) (hs : Steady c s) (hc : Consistent c s)
    (hgo : c.goesOn s) (hround : c.round s = .ok (s', stop)) (h : Onward c s s' stop found initialized step) {paid got : Nat}
    (hb : Booked c s₀ s paid got) : Booked c s₀ s' (paid + (step.amountIn + step.feeAmount)) (got + step.amountOut) := by
  obtain ⟨-, hrem, -⟩ := h.ending.state
  have hspent := (account_remaining hs.fits.remaining hgo.1 h.ok).1
  rw [← hrem] at hspent
  unfold Booked at hb ⊢
  by_cases hin : c.exactInput = true
  · rw [if_pos hin] at hb hspent ⊢
    refine ⟨?_, h.paid hg hin hp hs.fits hb.2⟩
    rw [hspent, hb.1]
    push_cast
    ring
  · rw [if_neg hin] at hb hspent ⊢
    refine ⟨?_, h.charged hg hin (by decide) hs hc hgo hround hb.2⟩
    rw [hspent, hb.1]
    push_cast
    ring

/-- **A round against the holdings.** -/
theorem Traded.round (hg : Grounded c) (hp : s₀.sqrtPriceX96 < 2 ^ 160) {paid got : Nat} (h : Traded c s₀ s paid got)
    (hgo : c.goesOn s) (hround : c.round s = .ok (s', stop)) : ∃ paid' got', Traded c s₀ s' paid' got' := by
  obtain ⟨found, initialized, step, ho⟩ := h.steady.onward hg hgo hround
  have hprice := ho.ending.state.1
  have hc := h.consistent
  obtain ⟨hcurveIn, hcurveOut⟩ := ho.curve hg hc
  have hpos := ho.pos
  have hnext := ho.next_pos hg
  have hcovers := (covers_iff hpos hnext ho.ok.onSide).1 ho.ok.covers
  have hpays := (pays_iff hpos hnext ho.ok.onSide).1 ho.ok.pays
  have htaken := h.taken
  have hgiven := h.given
  refine ⟨_, _, ho.steady hg h.steady hgo, (ho.advances hg hc).consistent, ho.booked hg hp h.steady hc hgo hround h.booked, ?_, ?_, ?_, ?_⟩
  · rw [hprice]
    exact h.onSide.trans ho.ok.onSide
  · rw [hprice, ← curveInput_add _ _ _ s.sqrtPriceX96, ← hcurveIn]
    have hfee : (0 : ℚ) ≤ step.feeAmount := Nat.cast_nonneg _
    push_cast
    linarith
  · rw [hprice, ← curveOutput_add _ _ _ s.sqrtPriceX96, ← hcurveOut]
    push_cast
    linarith
  · rw [hprice]
    exact risesOn_join h.onSide ho.ok.onSide h.rises (holdings_risesOn (ho.clear hg hc) hc.liquidity true (by omega))

/-- One price is a stretch on which nothing rises. -/
theorem risesOn_refl (f g : Nat → ℚ) (price : Nat) : RisesOn f g (stretch price price) := by
  intro x hx y hy _
  unfold stretch at hx hy
  rw [min_self, max_self, Set.Icc_self, Set.mem_singleton_iff] at hx hy
  rw [hx, hy]
  exact .inl ⟨rfl, rfl⟩

/-- **A run against the holdings.** -/
theorem loop_traded (hg : Grounded c) {fuel : Nat} {price liquidity : Nat} {tick amount : Int}
    (hs : Steady c ⟨amount, 0, price, tick, liquidity⟩) (hc : Consistent c ⟨amount, 0, price, tick, liquidity⟩)
    (h : c.loop fuel ⟨amount, 0, price, tick, liquidity⟩ = .ok s) :
    ∃ paid got, Traded c ⟨amount, 0, price, tick, liquidity⟩ s paid got := by
  have hbooked : Booked c ⟨amount, 0, price, tick, liquidity⟩ ⟨amount, 0, price, tick, liquidity⟩ 0 0 := by
    unfold Booked
    split
    · exact ⟨(sub_zero _).symm, rfl, (Nat.zero_add _).le⟩
    · exact ⟨(add_zero _).symm, charged_start hc.mem⟩
  have hstart : Traded c ⟨amount, 0, price, tick, liquidity⟩ ⟨amount, 0, price, tick, liquidity⟩ 0 0 := by
    refine ⟨hs, hc, hbooked, onSide_refl _ _, ?_, ?_, risesOn_refl _ _ _⟩
    · unfold curveInput
      split <;> simp
    · unfold curveOutput
      split <;> simp
  obtain ⟨-, hm, -⟩ := loop_ok (I := fun u _ => ∃ paid got, Traded c _ u paid got) h ⟨0, 0, hstart⟩
    fun u u' stop ⟨_, _, hn⟩ hgo hround => hn.round hg hs.fits.price hgo hround
  exact hm

end SwapCall

/-! ## Trades -/

/-- Where a pool stands between two trades. -/
structure Standing where
  price : Nat
  tick : Int
  liquidity : Nat

/-- A trade: a call of `v3_swap` as its caller chooses it. -/
structure Trade where
  fuel : Nat
  fee : Nat
  zeroForOne : Bool
  amount : Int
  limit : Option Nat

namespace Trade
variable (t : Trade)

def swap (ticks : TickMap) (search : TickSearch) (at' : Standing) : Except Fault SwapState :=
  v3Swap t.fuel t.fee at'.price at'.tick at'.liquidity ticks search t.zeroForOne t.amount t.limit

/-- What the pool's balance of the token of the amount asked for gains. -/
def specified (s : SwapState) : Int := t.amount - s.amountSpecifiedRemaining

/-- What the pool's balance of token 0 gains. -/
def amount0 (s : SwapState) : Int := if t.zeroForOne = decide (t.amount ≥ 0) then t.specified s else s.amountCalculated

/-- What the pool's balance of token 1 gains. -/
def amount1 (s : SwapState) : Int := if t.zeroForOne = decide (t.amount ≥ 0) then s.amountCalculated else t.specified s

end Trade

/-- Trades of any kind, each from where the one before ended, with what the balances gain in all. -/
inductive Trades (ticks : TickMap) (search : TickSearch) (start : Standing) : Standing → Int → Int → Prop
  | start : Trades ticks search start start 0 0
  | trade {at' : Standing} {gain0 gain1 : Int} {s : SwapState} (h : Trades ticks search start at' gain0 gain1) (t : Trade)
      (hfee : t.fee < MAX_FEE) (hamount : -2 ^ 255 ≤ t.amount ∧ t.amount < 2 ^ 255) (hswap : t.swap ticks search at' = .ok s) :
      Trades ticks search start ⟨s.sqrtPriceX96, s.tickCurrent, s.liquidity⟩ (gain0 + t.amount0 s) (gain1 + t.amount1 s)

/-- The trades against the holdings: the balances gain at least what these do, over prices on which they rise together. -/
structure Gained (ticks : TickMap) (search : TickSearch) (start at' : Standing) (gain0 gain1 : Int) : Prop where
  ground : search.Aligned ticks ∧ (∀ k v, ticks[k]? = some v → MIN_TICK ≤ k ∧ k ≤ MAX_TICK) ∧ netsAll ticks = 0
  words : at'.price < 2 ^ 160 ∧ at'.liquidity < 2 ^ 128
  mem : MIN_TICK ≤ at'.tick ∧ at'.tick ≤ MAX_TICK
  low : sqrtRatio at'.tick ≤ at'.price
  high : at'.tick < MAX_TICK → at'.price ≤ sqrtRatio (at'.tick + 1)
  liquidity : (at'.liquidity : Int) = netsUpTo ticks at'.tick
  token0 : holdings ticks true start.price - holdings ticks true at'.price ≤ gain0
  token1 : holdings ticks false at'.price - holdings ticks false start.price ≤ gain1
  rises : ∃ lowest highest, (lowest ≤ start.price ∧ start.price ≤ highest) ∧ (lowest ≤ at'.price ∧ at'.price ≤ highest) ∧
    RisesOn (holdings ticks true) (holdings ticks false) (Set.Icc lowest highest)

theorem Trade.amounts (t : Trade) {c : SwapCall} {s : SwapState} {price liquidity paid got : Nat} {tick : Int}
    (hmode : c.exactInput = decide (t.amount ≥ 0))
    (h : SwapCall.Booked c ⟨t.amount, 0, price, tick, liquidity⟩ s paid got) :
    t.amount0 s = (if t.zeroForOne then (paid : Int) else -got) ∧ t.amount1 s = if t.zeroForOne then -(got : Int) else paid := by
  unfold SwapCall.Booked at h
  unfold Trade.amount0 Trade.amount1 Trade.specified
  rw [← hmode]
  by_cases hin : c.exactInput = true
  · rw [if_pos hin] at h
    obtain ⟨hspent, hpaid⟩ := h
    have hcalc := hpaid.calculated
    dsimp only at hspent
    rw [hin]
    split <;> constructor <;> omega
  · rw [if_neg hin] at h
    obtain ⟨hspent, hcharged⟩ := h
    have hcalc := hcharged.calculated
    dsimp only at hspent
    rw [Bool.eq_false_iff.2 hin]
    cases t.zeroForOne <;> simp <;> omega

/-- **A trade keeps the balances ahead of the holdings.** -/
theorem Gained.trade {ticks : TickMap} {search : TickSearch} {start at' : Standing} {gain0 gain1 : Int} {s : SwapState}
    (h : Gained ticks search start at' gain0 gain1) (t : Trade) (hfee : t.fee < MAX_FEE)
    (hamount : -2 ^ 255 ≤ t.amount ∧ t.amount < 2 ^ 255) (hswap : t.swap ticks search at' = .ok s) :
    Gained ticks search start ⟨s.sqrtPriceX96, s.tickCurrent, s.liquidity⟩ (gain0 + t.amount0 s) (gain1 + t.amount1 s) := by
  obtain ⟨c, hc, hcheck, hloop⟩ := SwapCall.v3Swap_ok hswap
  have hticks : c.ticks = ticks := by rw [hc]
  have hsearch : c.tickSearch = search := by rw [hc]
  have hdir : c.zeroForOne = t.zeroForOne := by rw [hc]
  have hmode : c.exactInput = decide (t.amount ≥ 0) := by rw [hc]
  have hg : c.Grounded := by
    refine ⟨SwapCall.accepted_of_checkLimit (by rw [hc]; exact hfee) h.words.1 hcheck, ?_, ?_, ?_⟩
    · rw [hsearch, hticks]
      exact h.ground.1
    · rw [hticks]
      exact h.ground.2.1
    · rw [hticks]
      exact h.ground.2.2
  have hcons : c.Consistent ⟨t.amount, 0, at'.price, at'.tick, at'.liquidity⟩ :=
    ⟨h.mem, h.low, h.high, by rw [hticks]; exact h.liquidity⟩
  have hfits : c.Fits ⟨t.amount, 0, at'.price, at'.tick, at'.liquidity⟩ := by
    rw [hc]
    exact SwapCall.fits_start h.words.1 h.words.2 hamount
  obtain ⟨paid, got, htraded⟩ := SwapCall.loop_traded hg (hcons.steady hfits hcheck) hcons hloop
  obtain ⟨h0, h1⟩ := t.amounts hmode htraded.booked
  obtain ⟨hmem, hlow, hhigh, hliq⟩ := htraded.consistent
  have htaken := htraded.taken
  have hgiven := htraded.given
  have hrises := htraded.rises
  have hlast := h.token0
  have hlast' := h.token1
  rw [hticks] at hliq htaken hgiven hrises
  rw [hdir] at htaken hgiven
  dsimp only at htaken hgiven hrises
  refine ⟨h.ground, ⟨htraded.steady.fits.price, htraded.steady.fits.liquidity⟩, hmem, hlow, hhigh, hliq, ?_, ?_, ?_⟩
  · rw [h0]
    unfold curveInput at htaken
    unfold curveOutput at hgiven
    dsimp only
    cases hz : t.zeroForOne with
    | true =>
      simp only [hz, if_true] at htaken ⊢
      push_cast
      linarith
    | false =>
      simp only [hz, Bool.false_eq_true, if_false] at hgiven ⊢
      push_cast
      linarith
  · rw [h1]
    unfold curveInput at htaken
    unfold curveOutput at hgiven
    dsimp only
    cases hz : t.zeroForOne with
    | true =>
      simp only [hz, if_true] at hgiven ⊢
      push_cast
      linarith
    | false =>
      simp only [hz, Bool.false_eq_true, if_false] at htaken ⊢
      push_cast
      linarith
  · obtain ⟨lowest, highest, hstart, hat, hon⟩ := h.rises
    refine ⟨min lowest s.sqrtPriceX96, max highest s.sqrtPriceX96, ?_, ?_, hon.extend hat hrises⟩
    · exact ⟨(min_le_left _ _).trans hstart.1, hstart.2.trans (le_max_left _ _)⟩
    · exact ⟨min_le_right _ _, le_max_right _ _⟩

/-- **No trades gain in one token without paying in the other.** From a well-formed state, over any calls of
`v3_swap` one after the other, exact-input or exact-output, in any directions, with any limits and fees: where the pool's
balance of one token has gone down, that of the other has gone up; and where the price is back, neither has gone down. -/
theorem trades_noGain {price liquidity : Nat} {tick tickSpacing : Int} {ticks : TickMap} {search : TickSearch} {at' : Standing}
    {gain0 gain1 : Int} (hwf : WellFormed price tick liquidity ticks tickSpacing)
    (hsearch : search = .wordBounded tickSpacing ∨ search = .nextInitialized)
    (h : Trades ticks search ⟨price, tick, liquidity⟩ at' gain0 gain1) :
    (gain0 < 0 → 0 < gain1) ∧ (gain1 < 0 → 0 < gain0) ∧ (at'.price = price → 0 ≤ gain0 ∧ 0 ≤ gain1) := by
  have hgained : Gained ticks search ⟨price, tick, liquidity⟩ at' gain0 gain1 := by
    induction h with
    | start =>
      obtain ⟨hmem, hlow, hhigh⟩ := hwf.floor
      refine ⟨⟨hwf.ticks.aligned hsearch, fun k v hk => (hwf.ticks.keys k v hk).1, hwf.ticks.cancel⟩,
        ⟨hwf.price_lt, hwf.liquidity_lt⟩, hmem, hlow, fun hmax => (hhigh hmax).le, hwf.liquidity_eq, by simp, by simp,
        price, price, ⟨le_rfl, le_rfl⟩, ⟨le_rfl, le_rfl⟩, ?_⟩
      have hrefl := SwapCall.risesOn_refl (holdings ticks true) (holdings ticks false) price
      unfold SwapCall.stretch at hrefl
      rwa [min_self, max_self] at hrefl
    | trade _ t hfee hamount hswap ih => exact ih.trade t hfee hamount hswap
  obtain ⟨lowest, highest, hstart, hat, hon⟩ := hgained.rises
  have h0 := hgained.token0
  have h1 := hgained.token1
  dsimp only at h0 h1 hstart
  refine ⟨fun hneg => ?_, fun hneg => ?_, fun hback => ?_⟩
  · have hneg' : (gain0 : ℚ) < 0 := by exact_mod_cast hneg
    have hrise : (0 : ℚ) < gain1 := by
      by_contra hle
      have hless := hon.le_of_le hat hstart (by linarith)
      linarith
    exact_mod_cast hrise
  · have hneg' : (gain1 : ℚ) < 0 := by exact_mod_cast hneg
    have hrise : (0 : ℚ) < gain0 := by
      by_contra hle
      have hless := hon.swap.le_of_le hstart hat (by linarith)
      linarith
    exact_mod_cast hrise
  · rw [hback, sub_self] at h0 h1
    exact ⟨by exact_mod_cast h0, by exact_mod_cast h1⟩

/-- Token 0 in across the lower tick of a position, then most of it asked back as an exact output: the pool has less of
token 1, and more of token 0. -/
theorem trades_noGain_twice :
    ∃ at' gain0 gain1, Trades twoRanges (.wordBounded 60) ⟨2 ^ 96, 0, 2 * 10 ^ 18⟩ at' gain0 gain1 ∧ gain1 < 0 ∧ 0 < gain0 := by
  have hthere : Trade.swap ⟨10, 500, true, 8011713982475091, none⟩ twoRanges (.wordBounded 60) ⟨2 ^ 96, 0, 2 * 10 ^ 18⟩ =
      .ok ⟨0, -7973800094940205, 78833729453720964996035947081, -100, 10 ^ 18⟩ := by decide +kernel
  have hback : Trade.swap ⟨10, 500, false, -7000000000000000, none⟩ twoRanges (.wordBounded 60)
      ⟨78833729453720964996035947081, -100, 10 ^ 18⟩ =
      .ok ⟨0, 6970084493839425, 79188263186136525878535806656, -11, 2 * 10 ^ 18⟩ := by decide +kernel
  have htrades := Trades.trade (Trades.trade .start _ (by decide) (by decide) hthere) _ (by decide) (by decide) hback
  exact ⟨_, _, _, htrades, by decide, (trades_noGain twoRanges_wellFormed (.inl rfl) htrades).2.1 (by decide)⟩

end EvmDexPool.V3

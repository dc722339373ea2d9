import EvmDexPool.V2.StableQuotes

/-!
# Trades on one stable pool, one after the other

With 18 decimals on both sides the amounts of a pool are those of the curve, and the invariant that is not floored to zero
keeps the loop of every quote above zero. A trade at a quote then applies and leaves the curve where it was or higher
(`Eighteen.keeps`). The floored curve has flat parts, so that is not yet a statement about the reserves: where a side has a
whole token it has none (`curve_lt`), and nobody takes one token out without putting the other in (`stableTrades_keep`).
-/

namespace EvmDexPool.V2

open Fixed

theorem normal_eighteen (amount : Nat) : normal amount EXP18 = amount := Nat.mul_div_cancel _ exp18_pos

/-- Where one side has a whole token, the curve rises with every unit of the other. -/
theorem curve_lt {x x' y z : Nat} (hunit : EXP18 ≤ y) (hlt : x' < x) (hle : z ≤ y) : curve x' z < curve x y := by
  refine (curve_mono hle).trans_lt ?_
  have hproduct : x' * y / EXP18 + 1 ≤ x * y / EXP18 := by
    rw [← Nat.add_div_right _ exp18_pos]
    refine Nat.div_le_div_right ?_
    calc x' * y + EXP18 ≤ x' * y + y := Nat.add_le_add_left hunit _
      _ = (x' + 1) * y := (Nat.succ_mul _ _).symm
      _ ≤ x * y := Nat.mul_le_mul_right _ hlt
  have hsquares : EXP18 ≤ square x + square y := (square_ge hunit le_rfl).trans (Nat.le_add_left _ _)
  have hrise : x' * y / EXP18 * (square x' + square y) + EXP18 ≤ x * y / EXP18 * (square x + square y) :=
    calc x' * y / EXP18 * (square x' + square y) + EXP18
        ≤ x' * y / EXP18 * (square x + square y) + (square x + square y) :=
          Nat.add_le_add (Nat.mul_le_mul_left _ (Nat.add_le_add_right (square_mono hlt.le) _)) hsquares
      _ = (x' * y / EXP18 + 1) * (square x + square y) := (Nat.succ_mul _ _).symm
      _ ≤ x * y / EXP18 * (square x + square y) := Nat.mul_le_mul_right _ hproduct
  have hdiv := Nat.div_le_div_right (c := EXP18) hrise
  rw [Nat.add_div_right _ exp18_pos] at hdiv
  exact hdiv

namespace UniswapV2Pool

variable {p q : UniswapV2Pool} {tokenIn : Address} {amountIn amountOut : Nat}

/-- A stable pool of two tokens with 18 decimals whose invariant is not floored to zero. -/
structure Eighteen (p : UniswapV2Pool) : Prop where
  pool : StablePool p
  decimals0 : p.decimals0 = EXP18
  decimals1 : p.decimals1 = EXP18
  curve : 1 ≤ V2.curve p.reserve0 p.reserve1

/-- Trades at output quotes, each applied before the next is quoted, in a pool of at most a billion of each token. -/
inductive StableTrades : UniswapV2Pool → UniswapV2Pool → Prop
  | done (p : UniswapV2Pool) : StableTrades p p
  | trade {p q : UniswapV2Pool} {tokenIn : Address} {amountIn amountOut now : Nat}
      (hquote : p.calculateOutput tokenIn amountIn = .ok amountOut) (hbound : p.reserveOf tokenIn + amountIn ≤ 10 ^ 27)
      (hrest : StableTrades (p.applySwap now tokenIn amountIn amountOut).1 q) : StableTrades p q

namespace Eighteen

theorem units (h : p.Eighteen) (token : Address) : p.decimalsOf token = EXP18 ∧ p.decimalsAgainst token = EXP18 := by
  unfold decimalsOf decimalsAgainst
  split
  · exact ⟨h.decimals0, h.decimals1⟩
  · exact ⟨h.decimals1, h.decimals0⟩

/-- The amounts of the curve are the pool's. -/
theorem sides (h : p.Eighteen) (token : Address) :
    p.normalOf token = p.reserveOf token ∧ p.normalAgainst token = p.reserveAgainst token := by
  unfold normalOf normalAgainst
  rw [(h.units token).1, (h.units token).2]
  exact ⟨normal_eighteen _, normal_eighteen _⟩

theorem target (h : p.Eighteen) (token : Address) : p.target token = V2.curve p.reserve0 p.reserve1 := by
  unfold UniswapV2Pool.target
  rw [(h.sides token).1, (h.sides token).2]
  unfold reserveOf reserveAgainst
  split
  · rfl
  · exact curve_comm _ _

theorem k (h : p.Eighteen) : p.k p.reserve0 p.reserve1 = .ok (V2.curve p.reserve0 p.reserve1) :=
  (k_eq_target h.pool p.token0).trans (congrArg _ (h.target _))

/-- The loop of a quote starts on a slope and stays above zero. -/
theorem returns (h : p.Eighteen) (tokenIn : Address) (amountIn : Nat) :
    p.NoStepPastZero tokenIn amountIn ∧ Returns (p.loop tokenIn amountIn) := by
  have htarget : 1 ≤ p.target tokenIn := (h.target tokenIn).symm ▸ h.curve
  have hsteps : p.NoStepPastZero tokenIn amountIn := fun hzero => absurd hzero (by omega)
  have hslope : 1 ≤ slope (p.inputSide tokenIn amountIn) (p.normalAgainst tokenIn) :=
    slope_pos (htarget.trans (curve_mono_left (normalOf_le tokenIn amountIn)))
  exact ⟨hsteps, (loop_returns h.pool tokenIn amountIn).2 ⟨by omega, hsteps⟩⟩

/-- An amount that the pool has room for keeps its quote in range. -/
theorem inputSide_le (h : p.Eighteen) (hbound : p.reserveOf tokenIn + amountIn ≤ 10 ^ 27) :
    p.inputSide tokenIn amountIn ≤ p.reserveOf tokenIn + amountIn ∧ p.inputSide tokenIn amountIn ≤ 2 * 10 ^ 27 := by
  have hnet : p.net amountIn / FEE_DENOMINATOR ≤ amountIn := Nat.div_le_of_le_mul (by
    rw [Nat.mul_comm]
    exact net_le p amountIn)
  have hside : p.inputSide tokenIn amountIn = p.net amountIn / FEE_DENOMINATOR + p.reserveOf tokenIn := by
    unfold inputSide
    rw [(h.units tokenIn).1, normal_eighteen, (h.sides tokenIn).1]
  omega

/-- What there is to know of a quote: it leaves something of the reserve, on the curve or above it. -/
theorem covers (h : p.Eighteen) (hbound : p.reserveOf tokenIn + amountIn ≤ 10 ^ 27)
    (hquote : p.calculateOutput tokenIn amountIn = .ok amountOut) :
    (tokenIn = p.token0 ∨ tokenIn = p.token1) ∧ amountOut < p.reserveAgainst tokenIn ∧
      V2.curve p.reserve0 p.reserve1 ≤ V2.curve (p.reserveOf tokenIn + amountIn) (p.reserveAgainst tokenIn - amountOut) := by
  have htoken : tokenIn = p.token0 ∨ tokenIn = p.token1 := by
    by_contra hno
    push Not at hno
    rw [calculateOutput, if_neg hno.1, if_neg hno.2] at hquote
    cases hquote
  obtain ⟨hside, hx⟩ := h.inputSide_le hbound
  obtain ⟨z, hz, -, rfl⟩ := calculateOutput_ok h.pool htoken hx (h.returns tokenIn amountIn).1 hquote
  have hkeeps := (shortcutKeeps_of_eighteen h.pool h.decimals0 h.decimals1 hx).covers h.pool hz
  have hleft : p.left tokenIn z = p.reserveAgainst tokenIn - p.paid tokenIn z := by
    rw [← normal_left h.pool, (h.units tokenIn).2, normal_eighteen]
  rw [h.target, hleft] at hkeeps
  refine ⟨htoken, Nat.lt_of_not_le fun hall => ?_, hkeeps.trans (curve_mono_left hside)⟩
  have hcurve := h.curve
  rw [Nat.sub_eq_zero_of_le hall, curve_zero] at hkeeps
  omega

/-- **A trade at a quote keeps the pool** on the curve or above it. -/
theorem keeps (h : p.Eighteen) (hbound : p.reserveOf tokenIn + amountIn ≤ 10 ^ 27)
    (hquote : p.calculateOutput tokenIn amountIn = .ok amountOut) (now : Nat) :
    (p.applySwap now tokenIn amountIn amountOut).2 = .ok () ∧ (p.applySwap now tokenIn amountIn amountOut).1.Eighteen ∧
      V2.curve p.reserve0 p.reserve1 ≤ V2.curve (p.applySwap now tokenIn amountIn amountOut).1.reserve0
        (p.applySwap now tokenIn amountIn amountOut).1.reserve1 := by
  obtain ⟨htoken, hlt, hcurve⟩ := h.covers hbound hquote
  have hbound0 : p.reserve0 ≤ 10 ^ 27 := (le_normal h.pool.side0.units _).trans h.pool.bound0
  have hbound1 : p.reserve1 ≤ 10 ^ 27 := (le_normal h.pool.side1.units _).trans h.pool.bound1
  have hpos0 := h.pool.side0.pos
  have hpos1 := h.pool.side1.pos
  -- the pool with reserves of a trade
  have hafter : ∀ reserve0 reserve1, 1 ≤ reserve0 → reserve0 ≤ 10 ^ 27 → 1 ≤ reserve1 → reserve1 ≤ 10 ^ 27 →
      V2.curve p.reserve0 p.reserve1 ≤ V2.curve reserve0 reserve1 →
        Eighteen { p with reserve0 := reserve0, reserve1 := reserve1, lastUpdated := now } :=
    fun reserve0 reserve1 h0 hle0 h1 hle1 hle =>
      ⟨⟨h.pool.stable, h.pool.fee, Nat.ne_of_gt h0, Nat.ne_of_gt h1, h.pool.decimals0, h.pool.decimals1,
        by rw [h.decimals0, normal_eighteen]; exact hle0, by rw [h.decimals1, normal_eighteen]; exact hle1⟩,
        h.decimals0, h.decimals1, h.curve.trans hle⟩
  unfold reserveOf at hbound hcurve
  unfold reserveAgainst at hlt hcurve
  unfold applySwap
  by_cases ht : tokenIn = p.token0
  · rw [if_pos ht] at hbound hlt hcurve
    rw [if_pos ht] at hcurve
    rw [if_pos ht, if_neg (by omega), wadd_of_lt (by omega), wsub_of_le hlt.le (by omega)]
    exact ⟨rfl, hafter _ _ (by omega) hbound (by omega) (by omega) hcurve, hcurve⟩
  · rw [if_neg ht] at hbound hlt hcurve
    rw [if_neg ht, curve_comm (p.reserve1 + amountIn)] at hcurve
    rw [if_neg ht, if_pos (htoken.resolve_left ht), if_neg (by omega), wadd_of_lt (by omega), wsub_of_le hlt.le (by omega)]
    exact ⟨rfl, hafter _ _ (by omega) (by omega) (by omega) hbound hcurve, hcurve⟩

end Eighteen

theorem StableTrades.keep (h : StableTrades p q) (hp : p.Eighteen) :
    q.Eighteen ∧ curve p.reserve0 p.reserve1 ≤ curve q.reserve0 q.reserve1 := by
  induction h with
  | done => exact ⟨hp, le_rfl⟩
  | trade hquote hbound _ ih =>
    obtain ⟨-, hkept, hle⟩ := hp.keeps hbound hquote _
    exact ⟨(ih hkept).1, hle.trans (ih hkept).2⟩

end UniswapV2Pool

open UniswapV2Pool

/-- **Trades at the quotes of a stable pool take nothing for nothing.** Over any trades at the pool's own output quotes, in
either direction, `k` of the reserves does not fall; a reserve that has gone down has the other one gone up, where that one
had a whole token; and every later quote returns, above zero all the way, and what it quotes applies. -/
theorem stableTrades_keep {p q : UniswapV2Pool} (hp : p.Eighteen) (h : StableTrades p q) :
    (∃ before after, p.k p.reserve0 p.reserve1 = .ok before ∧ q.k q.reserve0 q.reserve1 = .ok after ∧ before ≤ after) ∧
      (EXP18 ≤ p.reserve1 → q.reserve0 < p.reserve0 → p.reserve1 < q.reserve1) ∧
      (EXP18 ≤ p.reserve0 → q.reserve1 < p.reserve1 → p.reserve0 < q.reserve0) ∧
      ∀ now tokenIn amountIn, tokenIn = q.token0 ∨ tokenIn = q.token1 → amountIn ≠ 0 → q.reserveOf tokenIn + amountIn ≤ 10 ^ 27 →
        Returns (q.calculateOutput tokenIn amountIn) ∧ Returns (q.calculateOutputChecked tokenIn amountIn) ∧
        ∀ amountOut, q.calculateOutput tokenIn amountIn = .ok amountOut →
          (q.applySwap now tokenIn amountIn amountOut).2 = .ok () := by
  obtain ⟨hq, hle⟩ := h.keep hp
  refine ⟨⟨_, _, hp.k, hq.k, hle⟩, fun hunit hlt => ?_, fun hunit hlt => ?_, fun now tokenIn amountIn htoken h0 hbound => ?_⟩
  · by_contra hno
    exact absurd hle (Nat.not_le.2 (curve_lt hunit hlt (Nat.not_lt.1 hno)))
  · by_contra hno
    rw [curve_comm, curve_comm q.reserve0] at hle
    exact absurd hle (Nat.not_le.2 (curve_lt hunit hlt (Nat.not_lt.1 hno)))
  · obtain ⟨hsteps, hreturns⟩ := hq.returns tokenIn amountIn
    obtain ⟨-, hx⟩ := hq.inputSide_le hbound
    obtain ⟨hquote, hchecked⟩ := calculateOutput_stable hq.pool htoken h0
    rw [hquote, hchecked, calculateStableOutput_loop hq.pool hx (loop_ne_overflow hq.pool hsteps),
      calculateStableOutputChecked_eq hq.pool hx]
    refine ⟨returns_bind hreturns fun _ _ => returns_ok _, returns_bind hreturns fun _ _ => returns_ok _, fun amountOut hout => ?_⟩
    rw [← calculateStableOutput_loop hq.pool hx (loop_ne_overflow hq.pool hsteps), ← hquote] at hout
    exact (hq.keeps hbound hout now).1

/-- A whole token in at its quote, and then one of the other. -/
theorem stableTrades_keep_there : ∃ q, StableTrades stablePair q ∧ ∃ before after,
    stablePair.k stablePair.reserve0 stablePair.reserve1 = .ok before ∧ q.k q.reserve0 q.reserve1 = .ok after ∧ before ≤ after := by
  have hsold : stablePair.calculateOutput 2 (10 ^ 18) = .ok 996999999999999999 := by decide +kernel
  have hback : (stablePair.applySwap 0 2 (10 ^ 18) 996999999999999999).1.calculateOutput 3 (10 ^ 18) = .ok 997000000000000000 := by
    decide +kernel
  have htrades : StableTrades stablePair _ :=
    .trade hsold (by decide +kernel) (@StableTrades.trade _ _ _ _ _ 0 hback (by decide +kernel) (.done _))
  exact ⟨_, htrades, (stableTrades_keep ⟨stablePair_stable, rfl, rfl, by decide +kernel⟩ htrades).1⟩

end EvmDexPool.V2

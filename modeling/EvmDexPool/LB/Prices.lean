import EvmDexPool.LB.Math
import EvmDexPool.Lib.BinaryPower

/-!
# Bin prices in order

`pow_128x128` works on the inverse of the base, below one, and inverts back above the centre id. Its
truncated powers fall with the exponent (`BinaryPower.power_anti`), so prices are in order as far as
they are powers of the whole exponent and do not run out. The loop reads 20 bits of an exponent that
may have 24, and a power that ran out is priced at zero: `prices_ordered_iff` says how far from the
centre the prices are in order.
-/

namespace EvmDexPool.LB

open BinaryPower

/-- The inverse of the base that the loop of `pow_128x128` multiplies up. -/
def inverseBase (binStep : Nat) : Nat := (2 ^ 256 - 1) / getBase binStep

theorem mul128x128_eq {a b : Nat} (ha : a ≤ SCALE) (hb : b ≤ SCALE) : mul128x128 a b = mul SCALE a b := by
  refine Nat.mod_eq_of_lt ((mul_le_left hb).trans_lt (ha.trans_lt ?_))
  unfold SCALE
  norm_num

/-- The loop is the truncated power of the bits it reads. -/
theorem powBits_eq {q : Nat} (hq : q ≤ SCALE) (y : Nat) : ∀ n bit : Nat,
    powBits y n bit (square SCALE q bit) (power SCALE q bit y) = power SCALE q (bit + n) y
  | 0, _ => rfl
  | n + 1, bit => by
    have hsq := square_le hq bit
    rw [powBits, mul128x128_eq hsq hsq, mul128x128_eq (power_le hq bit y) hsq]
    change powBits y n (bit + 1) (square SCALE q (bit + 1)) (power SCALE q (bit + 1) y) = _
    rw [powBits_eq hq y n (bit + 1), Nat.add_right_comm, Nat.add_assoc]

theorem powBits_start {q : Nat} (hq : q ≤ SCALE) (y : Nat) : powBits y 20 0 q SCALE = power SCALE q 20 y := by
  have h := powBits_eq hq y 20 0
  rw [Nat.zero_add] at h
  exact h

theorem binPrice_eq {id : Nat} (hid : id < 2 ^ 24) (binStep : Nat) :
    binPrice id binStep = pow128x128 (getBase binStep) ((id : Int) - 2 ^ 23) := by
  have hexp : getExponent id = .ok ((id : Int) - 2 ^ 23) := by
    rw [getExponent_of_priced (priced_of_lt (by omega)), Nat.mod_eq_of_lt (by omega : id < 2 ^ 32),
      Fixed.toSigned_of_lt (by omega : id < 2 ^ (32 - 1)), REAL_ID_SHIFT]
    norm_num
  exact binPrice_of_ok (by rw [getPriceFromId, hexp, ok_bind])

/-- Above one the loop runs on the inverse, and the sign of the exponent says whether to invert back. -/
theorem pow_of_gt {x : Nat} {y : Int} (hx : x > SCALE) (hy : y ≠ 0) : pow128x128 x y =
    if powBits y.natAbs 20 0 ((2 ^ 256 - 1) / x) SCALE = 0 then 0
    else if 0 < y then (2 ^ 256 - 1) / powBits y.natAbs 20 0 ((2 ^ 256 - 1) / x) SCALE
    else powBits y.natAbs 20 0 ((2 ^ 256 - 1) / x) SCALE := by
  have hsign : (!decide (y < 0)) = decide (0 < y) := by
    rw [← decide_not]
    exact decide_eq_decide.2 (by omega)
  unfold pow128x128
  rw [if_neg hy]
  simp only [if_pos hx, hsign, decide_eq_true_eq]

section Base
variable {binStep : Nat} (hs : 1 ≤ binStep) (hs' : binStep < 2 ^ 16)

include hs in
theorem getBase_gt : SCALE + 1 ≤ getBase binStep := by
  unfold getBase SCALE SCALE_OFFSET BASIS_POINT_MAX
  have : 1 ≤ binStep * 2 ^ 128 / 10000 := (Nat.le_div_iff_mul_le (by decide)).2 (by omega)
  omega

include hs' in
theorem getBase_lt : getBase binStep < 2 ^ 131 := by
  unfold getBase SCALE SCALE_OFFSET BASIS_POINT_MAX
  have : binStep * 2 ^ 128 / 10000 < 7 * 2 ^ 128 := (Nat.div_lt_iff_lt_mul (by decide)).2 (by omega)
  omega

include hs

theorem inverseBase_lt : inverseBase binStep < SCALE := by
  have hle : inverseBase binStep ≤ (2 ^ 256 - 1) / (SCALE + 1) := Nat.div_le_div_left (getBase_gt hs) (by decide)
  exact hle.trans_lt (by unfold SCALE; norm_num)

/-! ## Prices by their distance from the centre -/

theorem pow_eq {y : Int} (hy : y ≠ 0) : pow128x128 (getBase binStep) y =
    if power SCALE (inverseBase binStep) 20 y.natAbs = 0 then 0
    else if 0 < y then (2 ^ 256 - 1) / power SCALE (inverseBase binStep) 20 y.natAbs
    else power SCALE (inverseBase binStep) 20 y.natAbs := by
  have hbase : getBase binStep > SCALE := getBase_gt hs
  have hloop := powBits_start (inverseBase_lt hs).le y.natAbs
  unfold inverseBase at hloop ⊢
  generalize getBase binStep = x at *
  rw [pow_of_gt hbase hy, hloop]

theorem price_below {n : Nat} (hn : 0 < n) (hn' : n ≤ 2 ^ 23) :
    binPrice (2 ^ 23 - n) binStep = power SCALE (inverseBase binStep) 20 n := by
  rw [binPrice_eq (by omega), pow_eq hs (by omega), show ((2 ^ 23 - n : Nat) - 2 ^ 23 : Int).natAbs = n by omega,
    if_neg (show ¬0 < ((2 ^ 23 - n : Nat) - 2 ^ 23 : Int) by omega)]
  split <;> omega

theorem price_above {n : Nat} (hn : 0 < n) (hn' : n < 2 ^ 23) :
    binPrice (2 ^ 23 + n) binStep =
      if power SCALE (inverseBase binStep) 20 n = 0 then 0
      else (2 ^ 256 - 1) / power SCALE (inverseBase binStep) 20 n := by
  rw [binPrice_eq (by omega), pow_eq hs (by omega), show ((2 ^ 23 + n : Nat) - 2 ^ 23 : Int).natAbs = n by omega,
    if_pos (show 0 < ((2 ^ 23 + n : Nat) - 2 ^ 23 : Int) by omega)]

end Base

theorem price_centre (binStep : Nat) : binPrice (2 ^ 23) binStep = SCALE := by
  rw [binPrice_eq (by decide), pow128x128, if_pos (by norm_num)]

/-! ## How far the prices are in order -/

/-- Bins `i` and `j` have prices, in this order and none of them zero. -/
def PricedInOrder (binStep i j : Nat) : Prop :=
  ∃ a b, getPriceFromId i binStep = .ok a ∧ getPriceFromId j binStep = .ok b ∧ a ≤ b ∧ 0 < a ∧ 0 < b

/-- The ids within `w` of the centre have prices, and they are in order. -/
def OrderedWithin (binStep w : Nat) : Prop :=
  ∀ i j, i < 2 ^ 24 → j < 2 ^ 24 → 2 ^ 23 ≤ i + w → j ≤ 2 ^ 23 + w → i ≤ j → PricedInOrder binStep i j

theorem pricedInOrder_iff {binStep i j : Nat} (hi : i < 2 ^ 24) (hj : j < 2 ^ 24) :
    PricedInOrder binStep i j ↔ binPrice i binStep ≤ binPrice j binStep ∧ 0 < binPrice i binStep ∧ 0 < binPrice j binStep := by
  unfold PricedInOrder
  rw [getPriceFromId_of_priced (priced_of_lt (by omega)), getPriceFromId_of_priced (priced_of_lt (by omega))]
  constructor
  · rintro ⟨a, b, ha, hb, h⟩
    cases ha
    cases hb
    exact h
  · exact fun h => ⟨_, _, rfl, rfl, h⟩

section Order
variable {binStep w : Nat} (hs : 1 ≤ binStep)
include hs

/-- The power of an exponent of 20 bits falls with it. -/
theorem power_le_of_le {m n : Nat} (h : m ≤ n) (hn : n < 2 ^ 20) :
    power SCALE (inverseBase binStep) 20 n ≤ power SCALE (inverseBase binStep) 20 m := by
  refine power_anti (inverseBase_lt hs).le ?_
  rw [Nat.mod_eq_of_lt hn, Nat.mod_eq_of_lt (h.trans_lt hn)]
  exact h

/-- Beside the centre the power is below one. -/
theorem power_lt {n : Nat} (hn : 0 < n) (hn' : n < 2 ^ 20) : power SCALE (inverseBase binStep) 20 n < SCALE := by
  refine (power_le_of_le hs hn hn').trans_lt ?_
  rw [power_one (by decide) (by decide)]
  exact inverseBase_lt hs

omit hs in
/-- An id, by the side of the centre it is on. -/
theorem id_cases (id : Nat) :
    (∃ n, 0 < n ∧ n ≤ 2 ^ 23 ∧ id = 2 ^ 23 - n) ∨ id = 2 ^ 23 ∨ ∃ n, 0 < n ∧ id = 2 ^ 23 + n := by
  rcases lt_trichotomy id (2 ^ 23) with h | h | h
  · exact .inl ⟨2 ^ 23 - id, by omega, by omega, by omega⟩
  · exact .inr (.inl h)
  · exact .inr (.inr ⟨id - 2 ^ 23, by omega, by omega⟩)

/-- As far as the power does not run out, all the prices are there and in order. -/
theorem ordered_of_power (hw : w < 2 ^ 20) (hpos : 0 < power SCALE (inverseBase binStep) 20 w) :
    OrderedWithin binStep w := by
  have hall : ∀ {n}, n ≤ w → 0 < power SCALE (inverseBase binStep) 20 n := fun hn =>
    hpos.trans_le (power_le_of_le hs hn hw)
  have hinv : ∀ {n}, 0 < n → n ≤ w → SCALE ≤ (2 ^ 256 - 1) / power SCALE (inverseBase binStep) 20 n := by
    intro n hn hnw
    rw [Nat.le_div_iff_mul_le (hall hnw)]
    have := power_lt hs hn (hnw.trans_lt hw)
    unfold SCALE at *
    omega
  intro i j hi hj hiw hjw hij
  rw [pricedInOrder_iff hi hj]
  rcases id_cases i with ⟨m, hm, hm', rfl⟩ | rfl | ⟨m, hm, rfl⟩ <;>
    rcases id_cases j with ⟨n, hn, hn', rfl⟩ | rfl | ⟨n, hn, rfl⟩
  · rw [price_below hs hm hm', price_below hs hn hn']
    exact ⟨power_le_of_le hs (by omega) (by omega), hall (by omega), hall (by omega)⟩
  · rw [price_below hs hm hm', price_centre]
    exact ⟨(power_lt hs hm (by omega)).le, hall (by omega), by decide⟩
  · rw [price_below hs hm hm', price_above hs hn (by omega), if_neg (hall (by omega)).ne']
    have hlow := power_lt hs hm (show m < 2 ^ 20 by omega)
    have hhigh := hinv hn (by omega)
    exact ⟨hlow.le.trans hhigh, hall (by omega), (show 0 < SCALE by decide).trans_le hhigh⟩
  · omega
  · exact ⟨le_rfl, by rw [price_centre]; decide, by rw [price_centre]; decide⟩
  · rw [price_centre, price_above hs hn (by omega), if_neg (hall (by omega)).ne']
    have hhigh := hinv hn (by omega)
    exact ⟨hhigh, by decide, (show 0 < SCALE by decide).trans_le hhigh⟩
  · omega
  · omega
  · rw [price_above hs hm (by omega), price_above hs hn (by omega), if_neg (hall (by omega)).ne',
      if_neg (hall (by omega)).ne']
    refine ⟨Nat.div_le_div_left (power_le_of_le hs (by omega) (by omega)) (hall (by omega)), ?_, ?_⟩
    · exact (show 0 < SCALE by decide).trans_le (hinv hm (by omega))
    · exact (show 0 < SCALE by decide).trans_le (hinv hn (by omega))

/-- The loop does not read bit 20: `2^20` bins up the price is back below one, under that of the first bin up. -/
theorem not_ordered_of_le (hw : 2 ^ 20 ≤ w) : ¬OrderedWithin binStep w := by
  intro h
  obtain ⟨hle, hpos, -⟩ := (pricedInOrder_iff (by decide) (by decide)).1 <|
    h (2 ^ 23 + 1) (2 ^ 23 + 2 ^ 20) (by decide) (by decide) (by omega) (by omega) (by decide)
  have hback : power SCALE (inverseBase binStep) 20 (2 ^ 20) = SCALE := by
    refine le_antisymm (power_le (inverseBase_lt hs).le _ _) ?_
    have hback := power_anti (inverseBase_lt hs).le (show 2 ^ 20 % 2 ^ 20 ≤ 0 % 2 ^ 20 by decide)
    rwa [power_zero] at hback
  have hfirst := price_above hs (show 0 < 1 by decide) (by decide)
  have hfar := price_above hs (show 0 < 2 ^ 20 by decide) (by decide)
  rw [power_one (by decide) (by decide)] at hfirst
  rw [hback, if_neg (by decide)] at hfar
  have hlt := inverseBase_lt hs
  rw [hfirst] at hle hpos
  rw [hfar] at hle
  generalize inverseBase binStep = q at *
  by_cases h0 : q = 0
  · rw [if_pos h0] at hpos
    exact absurd hpos (Nat.lt_irrefl 0)
  · rw [if_neg h0] at hle
    have hge : SCALE ≤ (2 ^ 256 - 1) / q := by
      rw [Nat.le_div_iff_mul_le (Nat.pos_of_ne_zero h0)]
      unfold SCALE at *
      omega
    exact absurd (hge.trans hle) (by decide)

/-- The prices are in order exactly up to where the loop's 20 bits, or its power, run out. -/
theorem ordered_iff_power : OrderedWithin binStep w ↔ w < 2 ^ 20 ∧ 0 < power SCALE (inverseBase binStep) 20 w := by
  refine ⟨fun h => ?_, fun h => ordered_of_power hs h.1 h.2⟩
  have hw : w < 2 ^ 20 := Nat.lt_of_not_le fun hw => not_ordered_of_le hs hw h
  refine ⟨hw, ?_⟩
  obtain rfl | hw0 := Nat.eq_zero_or_pos w
  · rw [power_zero]
    decide
  · have horder := h (2 ^ 23 - w) (2 ^ 23) (by omega) (by decide) (by omega) (by omega) (by omega)
    have hpos := ((pricedInOrder_iff (by omega) (by decide)).1 horder).2.1
    rwa [price_below hs hw0 (by omega)] at hpos

/-! ## Where the power runs out -/

omit hs in
theorem scale_cast : ((SCALE : Nat) : ℝ) = 2 ^ 128 := by
  unfold SCALE
  norm_num

omit hs in
/-- A power that is there is that of a price of 256 bits. -/
theorem base_pow_le (hw : w < 2 ^ 20) (h : 0 < power SCALE (inverseBase binStep) 20 w) :
    getBase binStep ^ w ≤ SCALE ^ (w + 1) := by
  have hS : (0 : ℝ) < (SCALE : Nat) := by exact_mod_cast (show 0 < SCALE by decide)
  have hupper : (power SCALE (inverseBase binStep) 20 w : ℝ) ≤ SCALE * (inverseBase binStep / SCALE : ℝ) ^ (w % 2 ^ 20) :=
    power_le_exact (by decide) 20 w
  rw [Nat.mod_eq_of_lt hw] at hupper
  have hone : (1 : ℝ) ≤ SCALE * (inverseBase binStep / SCALE : ℝ) ^ w := le_trans (by exact_mod_cast h) hupper
  have hprod : (getBase binStep * (inverseBase binStep / SCALE : ℝ)) ≤ SCALE := by
    rw [mul_div_assoc', div_le_iff₀ hS]
    have hle : inverseBase binStep * getBase binStep ≤ 2 ^ 256 - 1 := Nat.div_mul_le_self _ _
    have : getBase binStep * inverseBase binStep ≤ SCALE * SCALE := by
      unfold SCALE
      rw [Nat.mul_comm]
      omega
    exact_mod_cast this
  have hreal : (getBase binStep : ℝ) ^ w ≤ (SCALE : ℝ) ^ (w + 1) :=
    calc (getBase binStep : ℝ) ^ w ≤ getBase binStep ^ w * (SCALE * (inverseBase binStep / SCALE : ℝ) ^ w) :=
          le_mul_of_one_le_right (by positivity) hone
      _ = SCALE * (getBase binStep * (inverseBase binStep / SCALE : ℝ)) ^ w := by rw [mul_pow]; ring
      _ ≤ SCALE * (SCALE : ℝ) ^ w := by gcongr
      _ = (SCALE : ℝ) ^ (w + 1) := by ring
  exact_mod_cast hreal

/-- Two bits short of 256 the power is there. -/
theorem power_of_base_pow (hs' : binStep < 2 ^ 16) (hw : w < 2 ^ 20) (h : 4 * getBase binStep ^ w ≤ SCALE ^ (w + 1)) :
    0 < power SCALE (inverseBase binStep) 20 w := by
  have hS : (0 : ℝ) < (SCALE : Nat) := by exact_mod_cast (show 0 < SCALE by decide)
  have hb0 : (0 : ℝ) < getBase binStep := by
    exact_mod_cast (show 0 < SCALE + 1 by decide).trans_le (getBase_gt hs)
  have hroot : (2 ^ 64 : ℝ) ^ 2 ≤ (SCALE : Nat) := by
    rw [scale_cast]
    norm_num
  refine power_pos (by decide) (inverseBase_lt hs).le (by norm_num) hroot hw ?_
  have hprod : (SCALE : ℝ) * (1 + -(8 / SCALE)) ≤ getBase binStep * (inverseBase binStep / SCALE : ℝ) := by
    rw [mul_div_assoc', le_div_iff₀ hS]
    have hbase := getBase_lt hs'
    have hdiv : 2 ^ 256 - 1 < inverseBase binStep * getBase binStep + getBase binStep :=
      Nat.lt_div_mul_add ((show 0 < SCALE + 1 by decide).trans_le (getBase_gt hs))
    have hnat : SCALE * SCALE ≤ getBase binStep * inverseBase binStep + 8 * SCALE := by
      unfold SCALE
      rw [Nat.mul_comm (getBase binStep)]
      omega
    have hcast : ((SCALE : Nat) : ℝ) * SCALE ≤ getBase binStep * inverseBase binStep + 8 * SCALE := by
      exact_mod_cast hnat
    have heq : (SCALE : ℝ) * (1 + -(8 / SCALE)) * SCALE = SCALE * SCALE - 8 * SCALE := by
      field_simp
      ring
    linarith
  have hsmall : (8 : ℝ) / SCALE ≤ 1 / 2 ^ 24 := by
    rw [scale_cast]
    norm_num
  have hbernoulli : (3 / 4 : ℝ) ≤ (1 + -(8 / SCALE : ℝ)) ^ w := by
    have hpow := one_add_mul_le_pow (a := -(8 / SCALE : ℝ)) (by linarith) w
    have hw' : (w : ℝ) < 2 ^ 20 := by exact_mod_cast hw
    have hloss : (w : ℝ) * (8 / SCALE) ≤ 2 ^ 20 * (1 / 2 ^ 24) := by gcongr
    refine le_trans ?_ hpow
    rw [mul_neg]
    have : (2 : ℝ) ^ 20 * (1 / 2 ^ 24) = 1 / 16 := by norm_num
    linarith
  have hfour : 4 * (getBase binStep : ℝ) ^ w ≤ (SCALE : ℝ) ^ (w + 1) := by exact_mod_cast h
  have hbw : (0 : ℝ) < (getBase binStep : ℝ) ^ w := pow_pos hb0 w
  refine le_of_mul_le_mul_left ?_ hbw
  calc (getBase binStep : ℝ) ^ w * 3 = 4 * getBase binStep ^ w * (3 / 4) := by ring
    _ ≤ (SCALE : ℝ) ^ (w + 1) * (1 + -(8 / SCALE : ℝ)) ^ w := by gcongr
    _ = SCALE * (SCALE * (1 + -(8 / SCALE : ℝ))) ^ w := by rw [mul_pow]; ring
    _ ≤ SCALE * (getBase binStep * (inverseBase binStep / SCALE : ℝ)) ^ w := by
      have : (0 : ℝ) ≤ SCALE * (1 + -(8 / SCALE)) := mul_nonneg hS.le (by linarith)
      gcongr
    _ = getBase binStep ^ w * (SCALE * (inverseBase binStep / SCALE : ℝ) ^ w) := by rw [mul_pow]; ring

end Order

/-- **Bin prices are in order and there** exactly within `w < 2^20` bins of the centre whose power does not
run out; that is, up to two bits, where the base to the `w` is representable in 128.128. -/
theorem prices_ordered_iff (binStep w : Nat) (hs : 1 ≤ binStep) (hs' : binStep < 2 ^ 16) :
    (OrderedWithin binStep w ↔ w < 2 ^ 20 ∧ 0 < power SCALE (inverseBase binStep) 20 w) ∧
      (OrderedWithin binStep w → w < 2 ^ 20 ∧ getBase binStep ^ w ≤ SCALE ^ (w + 1)) ∧
      (w < 2 ^ 20 → 4 * getBase binStep ^ w ≤ SCALE ^ (w + 1) → OrderedWithin binStep w) := by
  refine ⟨ordered_iff_power hs, fun h => ?_, fun hw h => ?_⟩
  · obtain ⟨hw, hpos⟩ := (ordered_iff_power hs).1 h
    exact ⟨hw, base_pow_le hw hpos⟩
  · exact ordered_of_power hs hw (power_of_base_pow hs hs' hw h)

/-- Steps of a quarter percent, a thousand bins to either side. -/
theorem prices_ordered_thousand : OrderedWithin 25 1000 :=
  (prices_ordered_iff 25 1000 (by decide) (by decide)).2.2 (by decide) (by decide +kernel)

/-- A million bins up the price is one again, below that of the first bin up; forty thousand down it is zero. -/
theorem prices_ordered_fails :
    (∃ low high, getPriceFromId (2 ^ 23 + 2 ^ 20) 25 = .ok low ∧ getPriceFromId (2 ^ 23 + 1) 25 = .ok high ∧ low < high) ∧
      getPriceFromId (2 ^ 23 - 40000) 25 = .ok 0 ∧
      ¬∀ i j, i < 2 ^ 24 → j < 2 ^ 24 → i ≤ j → PricedInOrder 25 i j := by
  have hlt : binPrice (2 ^ 23 + 2 ^ 20) 25 < binPrice (2 ^ 23 + 1) 25 := by decide +kernel
  refine ⟨⟨_, _, getPriceFromId_of_priced (by decide) 25, getPriceFromId_of_priced (by decide) 25, hlt⟩, by decide +kernel,
    fun h => ?_⟩
  have horder := h (2 ^ 23 + 1) (2 ^ 23 + 2 ^ 20) (by decide) (by decide) (by decide)
  exact absurd ((pricedInOrder_iff (by decide) (by decide)).1 horder).1 (not_le_of_gt hlt)

end EvmDexPool.LB

import Mathlib.Tactic.Ring
import Mathlib.Tactic.Linarith
import EvmDexPool.V2.Quotes

/-!
# The stable curve, and a Newton step on it

`curve` and `slope` are `f` and `d` without their words, every division floored. With `a` the square of
the input side times itself and `v` its product with the other square, the curve is at most `y (a + v)`
and the slope at least `a + 3 v`, up to a unit each: that is why a step from above stops short of zero
(`step_le`), keeps the slope from vanishing (`slope_after_step`) and the next step from going far
(`steady_after_step`).
-/

namespace EvmDexPool.V2

open Fixed

/-- A square in units of 18 decimals. -/
def square (n : Nat) : Nat := n * n / EXP18

/-- `f`, unbounded. -/
def curve (x y : Nat) : Nat := x * y / EXP18 * (square x + square y) / EXP18

/-- `d`, unbounded. -/
def slope (x y : Nat) : Nat := 3 * x * square y / EXP18 + square x * x / EXP18

theorem exp18_pos : 0 < EXP18 := by decide

section Curve
variable {x y z k step : Nat}

theorem curve_comm (x y : Nat) : curve x y = curve y x := by
  unfold curve
  rw [Nat.mul_comm x y, Nat.add_comm]

theorem square_mono (h : y ≤ z) : square y ≤ square z := Nat.div_le_div_right (Nat.mul_le_mul h h)

theorem curve_mono (h : y ≤ z) : curve x y ≤ curve x z :=
  Nat.div_le_div_right (Nat.mul_le_mul (Nat.div_le_div_right (Nat.mul_le_mul_left _ h))
    (Nat.add_le_add_left (square_mono h) _))

theorem curve_mono_left (h : y ≤ z) : curve y x ≤ curve z x := by
  rw [curve_comm y, curve_comm z]
  exact curve_mono h

theorem slope_mono (h : y ≤ z) : slope x y ≤ slope x z :=
  Nat.add_le_add_right (Nat.div_le_div_right (Nat.mul_le_mul_left _ (square_mono h))) _

theorem curve_zero (x : Nat) : curve x 0 = 0 := by simp [curve]

/-- The curve from above. -/
theorem curve_le (x y : Nat) : curve x y * (EXP18 * EXP18) ≤ y * (square x * x + x * square y) := by
  have h1 := Nat.div_mul_le_self (x * y / EXP18 * (square x + square y)) EXP18
  have h2 := Nat.div_mul_le_self (x * y) EXP18
  calc curve x y * (EXP18 * EXP18) = curve x y * EXP18 * EXP18 := (Nat.mul_assoc _ _ _).symm
    _ ≤ x * y / EXP18 * (square x + square y) * EXP18 := Nat.mul_le_mul_right _ h1
    _ = x * y / EXP18 * EXP18 * (square x + square y) := Nat.mul_right_comm _ _ _
    _ ≤ x * y * (square x + square y) := Nat.mul_le_mul_right _ h2
    _ = y * (square x * x + x * square y) := by ring

/-- The two terms of the slope. -/
theorem slope_eq (x y : Nat) : slope x y = 3 * (x * square y) / EXP18 + square x * x / EXP18 := by
  unfold slope
  rw [Nat.mul_assoc]

/-- A number at least `c` has at least the square of `c`. -/
theorem square_ge {c s : Nat} (h : c ≤ y) (hs : s * EXP18 ≤ c * c) : s ≤ square y :=
  ((Nat.le_div_iff_mul_le exp18_pos).2 hs).trans (square_mono h)

theorem square_of_small (h : x < 1000000000) : square x = 0 := by
  have : x * x ≤ 999999999 * 999999999 := Nat.mul_le_mul (by omega) (by omega)
  exact Nat.div_eq_of_lt (by unfold EXP18; omega)

/-- Where the curve has come to a unit while the second term of the slope has not, the output side is
small and the first term is large. -/
theorem steep_of_small (hk : 1 ≤ curve x y) (hv : x * square y < EXP18) : 2 * y ≤ EXP18 ∧ EXP18 < square x * x := by
  have hle := (Nat.mul_le_mul_right (EXP18 * EXP18) hk).trans (curve_le x y)
  rw [Nat.one_mul] at hle
  have hx : 0 < x := by
    rcases Nat.eq_zero_or_pos x with rfl | hx
    · simp [curve] at hk
    · exact hx
  have hsmall : 2 * y ≤ EXP18 := by
    by_contra hlarge
    have hsq : 250000000000000000 ≤ square y :=
      square_ge (c := 500000000000000000) (by unfold EXP18 at hlarge; omega) (by decide)
    have hx4 : x < 4 := by
      by_contra hge
      have := Nat.mul_le_mul (Nat.not_lt.1 hge) hsq
      unfold EXP18 at hv
      omega
    rw [square_of_small (by omega), Nat.zero_mul, Nat.zero_add] at hle
    have hy : EXP18 < y := by
      by_contra hno
      have := Nat.mul_lt_mul_of_le_of_lt (Nat.not_lt.1 hno) hv exp18_pos
      omega
    have hsq' : EXP18 ≤ square y := square_ge hy.le le_rfl
    have := Nat.le_mul_of_pos_left (square y) hx
    omega
  refine ⟨hsmall, ?_⟩
  by_contra hno
  have hsum : square x * x + x * square y < 2 * EXP18 := by omega
  have hlt : 2 * (EXP18 * EXP18) < EXP18 * (2 * EXP18) :=
    calc 2 * (EXP18 * EXP18) ≤ 2 * (y * (square x * x + x * square y)) := Nat.mul_le_mul_left _ hle
      _ = 2 * y * (square x * x + x * square y) := (Nat.mul_assoc _ _ _).symm
      _ ≤ EXP18 * (square x * x + x * square y) := Nat.mul_le_mul_right _ hsmall
      _ < EXP18 * (2 * EXP18) := Nat.mul_lt_mul_of_pos_left hsum exp18_pos
  exact absurd hlt (by rw [Nat.mul_left_comm]; exact lt_irrefl _)

/-- Where the curve has come to a unit, the slope has. -/
theorem slope_pos (hk : 1 ≤ curve x y) : 1 ≤ slope x y := by
  rw [slope_eq]
  by_cases hv : x * square y < EXP18
  · have hu := (steep_of_small hk hv).2
    have hterm := (Nat.le_div_iff_mul_le exp18_pos).2 (show 1 * EXP18 ≤ square x * x by omega)
    exact hterm.trans (Nat.le_add_left _ _)
  · have hterm := (Nat.le_div_iff_mul_le exp18_pos).2 (show 1 * EXP18 ≤ 3 * (x * square y) by omega)
    exact hterm.trans (Nat.le_add_right _ _)

/-- The slope from below. -/
theorem le_slope (x y : Nat) : square x * x + 3 * (x * square y) + 2 ≤ slope x y * EXP18 + 2 * EXP18 := by
  have h1 := Nat.lt_div_mul_add exp18_pos (a := 3 * (x * square y))
  have h2 := Nat.lt_div_mul_add exp18_pos (a := square x * x)
  rw [slope_eq, Nat.add_mul]
  omega

/-! ## A step from above -/

/-- A step of the whole curve stays above zero unless the second term of the slope is less than a unit. -/
theorem curve_le_slope (hv : EXP18 ≤ x * square y) : curve x y * EXP18 ≤ y * slope x y := by
  refine Nat.le_of_mul_le_mul_right ?_ exp18_pos
  have hslope := le_slope x y
  have hsum : square x * x + x * square y ≤ slope x y * EXP18 := by omega
  calc curve x y * EXP18 * EXP18 = curve x y * (EXP18 * EXP18) := Nat.mul_assoc _ _ _
    _ ≤ y * (square x * x + x * square y) := curve_le x y
    _ ≤ y * (slope x y * EXP18) := Nat.mul_le_mul_left _ hsum
    _ = y * slope x y * EXP18 := (Nat.mul_assoc _ _ _).symm

/-- A step of all but a unit of the curve stays above zero. -/
theorem curve_sub_le_slope (x y : Nat) : (curve x y - 1) * EXP18 ≤ y * slope x y := by
  rcases Nat.eq_zero_or_pos (curve x y) with h0 | hk
  · rw [h0]
    simp
  by_cases hv : x * square y < EXP18
  · obtain ⟨hsmall, -⟩ := steep_of_small hk hv
    refine Nat.le_of_mul_le_mul_right ?_ exp18_pos
    have hle := curve_le x y
    have hslope : square x * x + 1 ≤ slope x y * EXP18 + EXP18 := by
      have h2 := Nat.lt_div_mul_add exp18_pos (a := square x * x)
      have h1 : square x * x / EXP18 * EXP18 ≤ slope x y * EXP18 := Nat.mul_le_mul_right _ (Nat.le_add_left _ _)
      omega
    have hterms : y * (square x * x + x * square y) + y * 1 ≤ y * (slope x y * EXP18) + y * (2 * EXP18) := by
      rw [← Nat.mul_add, ← Nat.mul_add]
      exact Nat.mul_le_mul_left _ (by omega)
    have hwhole : y * (2 * EXP18) ≤ EXP18 * EXP18 := by
      rw [← Nat.mul_assoc, Nat.mul_comm y 2]
      exact Nat.mul_le_mul_right _ hsmall
    rw [Nat.sub_mul, Nat.sub_mul, Nat.one_mul, Nat.mul_assoc (curve x y), Nat.mul_assoc y]
    omega
  · exact (Nat.mul_le_mul_right _ (Nat.sub_le _ _)).trans (curve_le_slope (Nat.not_lt.1 hv))

/-- A step towards a curve of at least a unit stops short of zero. -/
theorem step_le (hk : 1 ≤ k) : (curve x y - k) * EXP18 / slope x y ≤ y := by
  rcases Nat.eq_zero_or_pos (slope x y) with h0 | hpos
  · rw [h0, Nat.div_zero]
    exact Nat.zero_le y
  · rw [Nat.div_le_iff_le_mul_add_pred hpos]
    have hle : (curve x y - k) * EXP18 ≤ (curve x y - 1) * EXP18 := Nat.mul_le_mul_right _ (Nat.sub_le_sub_left hk _)
    have := hle.trans (curve_sub_le_slope x y)
    rw [Nat.mul_comm (slope x y)]
    omega

/-! ## A step of the whole curve

Towards a target of zero a step may pass zero where the second term of the slope is less than a unit. That takes an
input side from a few ten-thousandths to a few thousandths of a token. -/

/-- What it takes: the output side is small, the first term of the slope is large, and a step of the curve is about all there is. -/
theorem step_past (hpast : y < curve x y * EXP18 / slope x y) :
    x * square y < EXP18 ∧ EXP18 < square x * x ∧ EXP18 * EXP18 ≤ y * (square x * x + x * square y) ∧
      square x * x ≤ 2 * y * EXP18 + EXP18 := by
  have hs : 0 < slope x y := Nat.pos_of_ne_zero fun h0 => by
    rw [h0, Nat.div_zero] at hpast
    exact absurd hpast (Nat.not_lt_zero _)
  have hstep := (Nat.le_div_iff_mul_le hs).1 (show y + 1 ≤ curve x y * EXP18 / slope x y from hpast)
  have hk : 1 ≤ curve x y := Nat.pos_of_ne_zero fun h0 => by
    rw [h0, Nat.zero_mul] at hstep
    exact absurd hstep (Nat.not_le.2 (Nat.mul_pos (Nat.succ_pos y) hs))
  have hv : x * square y < EXP18 := by
    by_contra hge
    have hle := curve_le_slope (Nat.not_lt.1 hge)
    rw [Nat.succ_mul] at hstep
    omega
  have hle := curve_le x y
  have hfloor := Nat.lt_div_mul_add exp18_pos (a := square x * x)
  have hslope : square x * x / EXP18 * EXP18 ≤ slope x y * EXP18 := Nat.mul_le_mul_right _ (Nat.le_add_left _ _)
  refine ⟨hv, (steep_of_small hk hv).2, ?_, ?_⟩
  · exact (Nat.le_mul_of_pos_left _ hk).trans hle
  · have hscaled : (y + 1) * (slope x y * EXP18) ≤ y * (square x * x + EXP18) :=
      calc (y + 1) * (slope x y * EXP18) = (y + 1) * slope x y * EXP18 := (Nat.mul_assoc _ _ _).symm
        _ ≤ curve x y * EXP18 * EXP18 := Nat.mul_le_mul_right _ hstep
        _ = curve x y * (EXP18 * EXP18) := Nat.mul_assoc _ _ _
        _ ≤ y * (square x * x + x * square y) := hle
        _ ≤ y * (square x * x + EXP18) := Nat.mul_le_mul_left _ (Nat.add_le_add_left hv.le _)
    have hunits : (y + 1) * (square x * x) ≤ (y + 1) * (slope x y * EXP18 + EXP18) := Nat.mul_le_mul_left _ (by omega)
    generalize square x * x = u at *
    generalize slope x y * EXP18 = s at *
    rw [Nat.mul_add, Nat.succ_mul y u, Nat.succ_mul y EXP18] at hunits
    rw [Nat.mul_add] at hscaled
    rw [Nat.mul_assoc]
    omega

/-- With more on the input side the output side is too small for the slope to be off by a step. -/
theorem step_le_of_wide (hx : 3300000000000000 ≤ x) (y : Nat) : curve x y * EXP18 / slope x y ≤ y := by
  by_contra hgt
  obtain ⟨hv, -, -, hu⟩ := step_past (Nat.not_le.1 hgt)
  have hsq : square y < 304 := by
    by_contra hge
    have := Nat.mul_le_mul hx (Nat.not_lt.1 hge)
    unfold EXP18 at hv
    omega
  have hy : y < 17440000000 := by
    by_contra hge
    have hmul := Nat.mul_le_mul (Nat.not_lt.1 hge) (Nat.not_lt.1 hge)
    have := (Nat.le_div_iff_mul_le exp18_pos).2 (show 304 * EXP18 ≤ y * y by unfold EXP18; omega)
    unfold square at hsq
    omega
  have hxx : 10890000000000 ≤ square x := square_ge hx (by decide)
  have := Nat.mul_le_mul hxx hx
  unfold EXP18 at hu
  omega

/-- With less the curve does not come to a unit before the second term of the slope does. -/
theorem step_le_of_narrow (hx : x < 250000000000000) (y : Nat) : curve x y * EXP18 / slope x y ≤ y := by
  by_contra hgt
  obtain ⟨hv, hu, hunit, -⟩ := step_past (Nat.not_le.1 hgt)
  have hlow : 1000000000000 ≤ x := by
    by_contra hlt
    have hmul := Nat.mul_le_mul (show x ≤ 999999999999 by omega) (show x ≤ 999999999999 by omega)
    have hsq : square x ≤ 999999 := Nat.le_of_lt_succ ((Nat.div_lt_iff_lt_mul exp18_pos).2 (by unfold EXP18; omega))
    have := Nat.mul_le_mul hsq (show x ≤ 999999999999 by omega)
    unfold EXP18 at hu
    omega
  -- the second term bounds the output side from above, the curve from below
  have habove : x * (y * y) ≤ 1000250000000000000000000000000000000 := by
    have hfloor : y * y ≤ (square y + 1) * EXP18 := by
      rw [Nat.add_mul, Nat.one_mul]
      exact (Nat.lt_div_mul_add exp18_pos).le
    calc x * (y * y) ≤ x * ((square y + 1) * EXP18) := Nat.mul_le_mul_left _ hfloor
      _ = (x * square y + x) * EXP18 := by ring
      _ ≤ (EXP18 + 250000000000000) * EXP18 := Nat.mul_le_mul_right _ (by omega)
      _ = 1000250000000000000000000000000000000 := by decide
  have hy : y < 1001000000000 := by
    by_contra hge
    have hmul := Nat.mul_le_mul hlow (Nat.mul_le_mul (Nat.not_lt.1 hge) (Nat.not_lt.1 hge))
    omega
  have hbelow : 999998000000000000000000000000000000000000000000000000 ≤ y * (x * x * x) := by
    have hcube : square x * x * EXP18 ≤ x * x * x := by
      rw [Nat.mul_right_comm]
      exact Nat.mul_le_mul_right _ (Nat.div_mul_le_self _ _)
    have hscaled : EXP18 * EXP18 * EXP18 ≤ y * (x * x * x) + y * (EXP18 * EXP18) :=
      calc EXP18 * EXP18 * EXP18 ≤ y * (square x * x + x * square y) * EXP18 := Nat.mul_le_mul_right _ hunit
        _ ≤ y * (square x * x + EXP18) * EXP18 := Nat.mul_le_mul_right _ (Nat.mul_le_mul_left _ (by omega))
        _ = y * (square x * x * EXP18) + y * (EXP18 * EXP18) := by ring
        _ ≤ y * (x * x * x) + y * (EXP18 * EXP18) := Nat.add_le_add_right (Nat.mul_le_mul_left _ hcube) _
    unfold EXP18 at hscaled
    omega
  have hfifth : x * x * x * (x * x) ≤ 250000000000000 * 250000000000000 * 250000000000000 * (250000000000000 * 250000000000000) :=
    Nat.mul_le_mul (Nat.mul_le_mul (Nat.mul_le_mul hx.le hx.le) hx.le) (Nat.mul_le_mul hx.le hx.le)
  have hsquare := Nat.mul_le_mul hbelow hbelow
  have hsplit : y * (x * x * x) * (y * (x * x * x)) = x * (y * y) * (x * x * x * (x * x)) := by ring
  have := Nat.mul_le_mul habove hfifth
  omega

/-! ## Where the first term of the slope is less than a unit -/

theorem lt_of_first_term (hu : square x * x < EXP18) : x < 1000000000000 := by
  by_contra hge
  have hsq : 1000000 ≤ square x := square_ge (Nat.not_lt.1 hge) (by decide)
  have := Nat.mul_le_mul hsq (Nat.not_lt.1 hge)
  unfold EXP18 at hu
  omega

/-- Then, if `x` has a square, the second term is at least four. -/
theorem second_term_large (hx : 1000000000 ≤ x) (hk : 1 ≤ curve x y) (hu : square x * x < EXP18) :
    4 * EXP18 ≤ x * square y := by
  by_contra hlt
  have hle := (Nat.mul_le_mul_right (EXP18 * EXP18) hk).trans (curve_le x y)
  rw [Nat.one_mul] at hle
  have hy : 200000000000000000 ≤ y := by
    by_contra hno
    have hprod : y * (square x * x + x * square y) ≤ y * (5 * EXP18) := Nat.mul_le_mul_left _ (by omega)
    unfold EXP18 at hle hprod
    omega
  have hsq : 40000000000000000 ≤ square y := square_ge hy (by decide)
  have := Nat.mul_le_mul hx hsq
  unfold EXP18 at hlt
  omega

/-- Then the second term is at least five quarters of one. -/
theorem second_term (hx : 2 ≤ x) (hk : 1 ≤ curve x y) (hu : square x * x < EXP18) : 5 * EXP18 ≤ 4 * (x * square y) := by
  by_cases hlarge : 1000000000 ≤ x
  · have := second_term_large hlarge hk hu
    omega
  by_contra hlt
  have hle := (Nat.mul_le_mul_right (EXP18 * EXP18) hk).trans (curve_le x y)
  rw [Nat.one_mul, square_of_small (Nat.not_le.1 hlarge), Nat.zero_mul, Nat.zero_add] at hle
  have hy : 800000000000000000 ≤ y := by
    by_contra hno
    have hprod : 4 * (y * (x * square y)) ≤ y * (5 * EXP18) := by
      rw [Nat.mul_left_comm]
      exact Nat.mul_le_mul_left _ (by omega)
    unfold EXP18 at hle hprod
    omega
  have hsq : 640000000000000000 ≤ square y := square_ge hy (by decide)
  have := Nat.mul_le_mul hx hsq
  unfold EXP18 at hlt
  omega

/-- A step whose slope is `n` units takes off at most four ninths, if what it is taken of is at most
`(n + m) / 3` and `n` is three times `m`. -/
theorem part_of_bound {n m bound : Nat} (hn : 0 < n) (hm : 3 * m ≤ n) (hsteps : step * n * EXP18 ≤ y * bound)
    (hbound : 3 * bound ≤ (n + m) * EXP18) : 9 * step ≤ 4 * y := by
  have hscaled : 3 * step * n * EXP18 ≤ y * (n + m) * EXP18 := by
    calc 3 * step * n * EXP18 = 3 * (step * n * EXP18) := by ring
      _ ≤ 3 * (y * bound) := Nat.mul_le_mul_left _ hsteps
      _ = y * (3 * bound) := Nat.mul_left_comm _ _ _
      _ ≤ y * ((n + m) * EXP18) := Nat.mul_le_mul_left _ hbound
      _ = y * (n + m) * EXP18 := (Nat.mul_assoc _ _ _).symm
  have hstep := Nat.le_of_mul_le_mul_right hscaled exp18_pos
  refine Nat.le_of_mul_le_mul_right ?_ hn
  calc 9 * step * n = 3 * (3 * step * n) := by ring
    _ ≤ 3 * (y * (n + m)) := Nat.mul_le_mul_left _ hstep
    _ = y * (3 * n + 3 * m) := by ring
    _ ≤ y * (4 * n) := Nat.mul_le_mul_left _ (by omega)
    _ = 4 * y * n := by ring

/-- And a step takes off at most four ninths. -/
theorem step_le_part (hx : 2 ≤ x) (hk : 1 ≤ curve x y) (hu : square x * x < EXP18)
    (hstep : step * slope x y ≤ curve x y * EXP18) : 9 * step ≤ 4 * y := by
  have hv := second_term hx hk hu
  have hslope : slope x y = 3 * (x * square y) / EXP18 := by rw [slope_eq, Nat.div_eq_of_lt hu, Nat.add_zero]
  have hlt := Nat.lt_div_mul_add exp18_pos (a := 3 * (x * square y))
  have hsteps : step * slope x y * EXP18 ≤ y * (square x * x + x * square y) :=
    (Nat.mul_le_mul_right EXP18 hstep).trans (by rw [Nat.mul_assoc (curve x y)]; exact curve_le x y)
  rw [hslope] at hsteps
  by_cases hlarge : 1000000000 ≤ x
  · have hv4 := second_term_large hlarge hk hu
    have htwelve : 3 * 4 ≤ 3 * (x * square y) / EXP18 := (Nat.le_div_iff_mul_le exp18_pos).2 (by omega)
    refine part_of_bound (by omega) htwelve hsteps ?_
    rw [Nat.add_mul]
    omega
  · rw [square_of_small (Nat.not_le.1 hlarge), Nat.zero_mul, Nat.zero_add] at hsteps
    have hthree : 3 * 1 ≤ 3 * (x * square y) / EXP18 := (Nat.le_div_iff_mul_le exp18_pos).2 (by omega)
    refine part_of_bound (by omega) hthree hsteps ?_
    rw [Nat.add_mul]
    omega

/-! ## After a step -/

/-- Two numbers not far apart have squares not far apart. -/
theorem square_of_part {a b : Nat} (h : a * y ≤ b * z) : a * a * square y ≤ b * b * (square z + 1) := by
  refine Nat.le_of_mul_le_mul_right ?_ exp18_pos
  have hy := Nat.div_mul_le_self (y * y) EXP18
  have hz := Nat.lt_div_mul_add exp18_pos (a := z * z)
  calc a * a * square y * EXP18 = a * a * (square y * EXP18) := Nat.mul_assoc _ _ _
    _ ≤ a * a * (y * y) := Nat.mul_le_mul_left _ hy
    _ = a * y * (a * y) := Nat.mul_mul_mul_comm _ _ _ _
    _ ≤ b * z * (b * z) := Nat.mul_le_mul h h
    _ = b * b * (z * z) := Nat.mul_mul_mul_comm _ _ _ _
    _ ≤ b * b * ((square z + 1) * EXP18) := Nat.mul_le_mul_left _ (by rw [Nat.add_mul, Nat.one_mul]; exact hz.le)
    _ = b * b * (square z + 1) * EXP18 := (Nat.mul_assoc _ _ _).symm

/-- A step from where the curve has come to a unit, or of one, leaves the slope a unit. -/
theorem slope_after_step (hx : 2 ≤ x) (hk : 1 ≤ curve x y) (hstep : step * slope x y ≤ curve x y * EXP18 ∨ step = 1) :
    1 ≤ slope x (y - step) := by
  by_cases hu : square x * x < EXP18
  · have hv := second_term hx hk hu
    have hsmall := lt_of_first_term hu
    have hpart : 9 * step ≤ 4 * y := by
      rcases hstep with h | rfl
      · exact step_le_part hx hk hu h
      · by_contra hlt
        have hzero : square y = 0 := square_of_small (by omega)
        rw [hzero, Nat.mul_zero] at hv
        unfold EXP18 at hv
        omega
    have hsq := square_of_part (show 5 * y ≤ 9 * (y - step) by omega)
    have hprod : 25 * (x * square y) ≤ 81 * (x * square (y - step)) + 81 * x := by
      calc 25 * (x * square y) = x * (5 * 5 * square y) := by ring
        _ ≤ x * (9 * 9 * (square (y - step) + 1)) := Nat.mul_le_mul_left _ hsq
        _ = 81 * (x * square (y - step)) + 81 * x := by ring
    rw [slope_eq]
    refine le_trans ((Nat.le_div_iff_mul_le exp18_pos).2 ?_) (Nat.le_add_right _ _)
    unfold EXP18 at hv ⊢
    omega
  · rw [slope_eq]
    exact le_trans ((Nat.le_div_iff_mul_le exp18_pos).2 (by omega)) (Nat.le_add_left _ _)

/-- Where the second term leads, a step leaves a third. -/
theorem third_after_step (hx : 2 ≤ x) (hk : 1 ≤ curve x y) (hlead : square x * x ≤ x * square y)
    (hstep : step * slope x y ≤ curve x y * EXP18 ∨ step = 1) : y ≤ 3 * (y - step) := by
  have hv : EXP18 ≤ x * square y := by
    by_contra hlt
    have := (steep_of_small hk (Nat.not_le.1 hlt)).2
    omega
  rcases hstep with hstep | rfl
  · by_cases hu : square x * x < EXP18
    · have := step_le_part hx hk hu hstep
      omega
    · have hfirst : 1 ≤ square x * x / EXP18 := (Nat.le_div_iff_mul_le exp18_pos).2 (by omega)
      have hlt := Nat.lt_div_mul_add exp18_pos (a := 3 * (x * square y))
      have hsum : 3 * (square x * x + x * square y) ≤ 2 * (slope x y * EXP18) := by
        rw [slope_eq, Nat.add_mul]
        have := Nat.mul_le_mul_right EXP18 hfirst
        omega
      have hscaled : 3 * step * (slope x y * EXP18) ≤ 2 * y * (slope x y * EXP18) := by
        calc 3 * step * (slope x y * EXP18) = 3 * (step * slope x y * EXP18) := by ring
          _ ≤ 3 * (curve x y * EXP18 * EXP18) := Nat.mul_le_mul_left _ (Nat.mul_le_mul_right _ hstep)
          _ = 3 * (curve x y * (EXP18 * EXP18)) := by rw [Nat.mul_assoc]
          _ ≤ 3 * (y * (square x * x + x * square y)) := Nat.mul_le_mul_left _ (curve_le x y)
          _ = y * (3 * (square x * x + x * square y)) := Nat.mul_left_comm _ _ _
          _ ≤ y * (2 * (slope x y * EXP18)) := Nat.mul_le_mul_left _ hsum
          _ = 2 * y * (slope x y * EXP18) := by ring
      have := Nat.le_of_mul_le_mul_right hscaled (Nat.mul_pos (slope_pos hk) exp18_pos)
      omega
  · by_contra hlt
    rw [square_of_small (by omega), Nat.mul_zero] at hv
    exact absurd hv (Nat.not_le.2 exp18_pos)

/-- The slope after a step is still large against a target that `w`, not after `y`, attains. -/
theorem steady_after_step {w : Nat} (hx : 2 ≤ x) (hk : 1 ≤ k) (hw : k ≤ curve x w) (hwy : w ≤ y)
    (hstep : step * slope x y ≤ curve x y * EXP18 ∨ step = 1) : k * EXP18 ≤ 14 * w * slope x (y - step) := by
  have hkw : 1 ≤ curve x w := hk.trans hw
  have hky : 1 ≤ curve x y := hkw.trans (curve_mono hwy)
  have hle : k * (EXP18 * EXP18) ≤ w * (square x * x + x * square w) :=
    (Nat.mul_le_mul_right _ hw).trans (curve_le x w)
  have hslope := slope_after_step hx hky hstep
  refine Nat.le_of_mul_le_mul_right ?_ exp18_pos
  rw [Nat.mul_assoc k]
  have hfirst := Nat.lt_div_mul_add exp18_pos (a := square x * x)
  have hsecond := Nat.lt_div_mul_add exp18_pos (a := 3 * (x * square (y - step)))
  have hsum : slope x (y - step) * EXP18 = 3 * (x * square (y - step)) / EXP18 * EXP18 + square x * x / EXP18 * EXP18 := by
    rw [slope_eq, Nat.add_mul]
  have hunit : 1 * EXP18 ≤ slope x (y - step) * EXP18 := Nat.mul_le_mul_right _ hslope
  by_cases hlead : square x * x ≤ x * square w
  · have hvy : x * square w ≤ x * square y := Nat.mul_le_mul_left _ (square_mono hwy)
    have hthird := third_after_step hx hky (hlead.trans hvy) hstep
    have hsq := square_of_part (show 1 * y ≤ 3 * (y - step) by omega)
    have hprod : x * square y ≤ 9 * (x * square (y - step)) + 9 * x := by
      calc x * square y = x * (1 * 1 * square y) := by ring
        _ ≤ x * (3 * 3 * (square (y - step) + 1)) := Nat.mul_le_mul_left _ hsq
        _ = 9 * (x * square (y - step)) + 9 * x := by ring
    have hxs : 9 * x ≤ slope x (y - step) * EXP18 := by
      by_cases hsmall : x < 1000000000000
      · unfold EXP18 at hunit ⊢
        omega
      · have hsq' : 1000000 ≤ square x := square_ge (Nat.not_lt.1 hsmall) (by decide)
        have := Nat.mul_le_mul_right x hsq'
        omega
    calc k * (EXP18 * EXP18) ≤ w * (square x * x + x * square w) := hle
      _ ≤ w * (14 * (slope x (y - step) * EXP18)) := Nat.mul_le_mul_left _ (by omega)
      _ = 14 * w * slope x (y - step) * EXP18 := by ring
  · have hu : EXP18 ≤ square x * x := by
      by_contra hlt
      have := (steep_of_small hkw (by omega)).2
      omega
    have hfloor := (Nat.le_div_iff_mul_le exp18_pos).2 (show 1 * EXP18 ≤ square x * x by omega)
    have hunit' := Nat.mul_le_mul_right EXP18 hfloor
    calc k * (EXP18 * EXP18) ≤ w * (square x * x + x * square w) := hle
      _ ≤ w * (14 * (slope x (y - step) * EXP18)) := Nat.mul_le_mul_left _ (by omega)
      _ = 14 * w * slope x (y - step) * EXP18 := by ring

/-! ## The words -/

/-- Within these bounds neither wraps. -/
theorem f_eq (hx : x ≤ 2000000000000000000000000000) (hy : y ≤ 15000000000000000000000000000) :
    f x y = curve x y ∧ d x y = slope x y ∧ curve x y * EXP18 < 2 ^ 256 := by
  have hxy := Nat.mul_le_mul hx hy
  have hxx := Nat.mul_le_mul hx hx
  have hyy := Nat.mul_le_mul hy hy
  have hsx : square x ≤ 4000000000000000000000000000000000000 := Nat.div_le_of_le_mul (by unfold EXP18; omega)
  have hsy : square y ≤ 225000000000000000000000000000000000000 := Nat.div_le_of_le_mul (by unfold EXP18; omega)
  have hp : x * y / EXP18 ≤ 30000000000000000000000000000000000000 := Nat.div_le_of_le_mul (by unfold EXP18; omega)
  have hsum : square x + square y ≤ 229000000000000000000000000000000000000 := by omega
  have hprod := Nat.mul_le_mul hp hsum
  have hsecond := Nat.mul_le_mul hx hsy
  have hfirst := Nat.mul_le_mul hsx hx
  have hdiv := Nat.div_le_self (3 * x * square y) EXP18
  have hdiv' := Nat.div_le_self (square x * x) EXP18
  have hassoc : 3 * x * square y = 3 * (x * square y) := Nat.mul_assoc _ _ _
  refine ⟨?_, ?_, ?_⟩
  · unfold f
    dsimp only
    rw [wmul_of_lt (by omega : x * y < 2 ^ 256), wmul_of_lt (by omega : x * x < 2 ^ 256),
      wmul_of_lt (by omega : y * y < 2 ^ 256)]
    change wmul 256 (x * y / EXP18) (wadd 256 (square x) (square y)) / EXP18 = _
    rw [wadd_of_lt (by omega), wmul_of_lt (by omega)]
    rfl
  · unfold d
    rw [wmul_of_lt (by omega : 3 * x < 2 ^ 256), wmul_of_lt (by omega : x * x < 2 ^ 256),
      wmul_of_lt (by omega : y * y < 2 ^ 256)]
    change wadd 256 (wmul 256 (3 * x) (square y) / EXP18) (wmul 256 (square x) x / EXP18) = _
    rw [wmul_of_lt (by omega), wmul_of_lt (by omega), wadd_of_lt (by omega)]
    rfl
  · have := Nat.div_mul_le_self (x * y / EXP18 * (square x + square y)) EXP18
    change curve x y * EXP18 ≤ _ at this
    omega

end Curve

end EvmDexPool.V2

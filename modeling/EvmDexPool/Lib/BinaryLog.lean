import Mathlib.Analysis.SpecialFunctions.Log.Basic
import Mathlib.Tactic.FieldSimp
import Mathlib.Tactic.Linarith

/-!
# Binary logarithms by squaring

A mantissa of `w` bits after its first is a natural number between `2 ^ w` and `2 ^ (w + 1)`. Squaring it
doubles its logarithm: the carry is the next binary digit, and what is left is a mantissa again, rounded
down. `digits_log` says how far the digits are from the logarithm; `log_floor` is what each rounding costs.
-/

namespace BinaryLog

open Real

/-- Logarithms of two numbers are no further apart than the numbers, relatively. -/
theorem log_le_add {x y : ℝ} (hx : 0 < x) (hy : 0 < y) : log y ≤ log x + (y - x) / x := by
  have hquot := log_le_sub_one_of_pos (div_pos hy hx)
  rw [log_div hy.ne' hx.ne'] at hquot
  have heq : y / x - 1 = (y - x) / x := by field_simp
  linarith

theorem abs_log_sub_le {x y e : ℝ} (hx : 0 < x) (he : e ≤ 1 / 2) (h : |y - x| ≤ x * e) : |log y - log x| ≤ 2 * e := by
  obtain ⟨hlo, hhi⟩ := abs_le.1 h
  have he0 : 0 ≤ e := nonneg_of_mul_nonneg_right ((abs_nonneg _).trans h) hx
  have hy : x / 2 ≤ y := by nlinarith
  have hypos : 0 < y := by linarith
  have hup := log_le_add hx hypos
  have hdown := log_le_add hypos hx
  have h1 : (y - x) / x ≤ 2 * e := by
    rw [div_le_iff₀ hx]
    nlinarith
  have h2 : (x - y) / y ≤ 2 * e := by
    rw [div_le_iff₀ hypos]
    nlinarith
  rw [abs_le]
  constructor <;> linarith

/-- The floor of a quotient is one less at most. -/
theorem log_floor {a b : ℕ} (hb : 0 < b) (h : 0 < a / b) :
    log ((a / b : ℕ) : ℝ) ≤ log (a / b : ℝ) ∧ log (a / b : ℝ) ≤ log ((a / b : ℕ) : ℝ) + 1 / ((a / b : ℕ) : ℝ) := by
  have hpos : (0 : ℝ) < ((a / b : ℕ) : ℝ) := Nat.cast_pos.2 h
  have hle : ((a / b : ℕ) : ℝ) ≤ a / b := Nat.cast_div_le
  have hlt : (a / b : ℝ) < ((a / b : ℕ) : ℝ) + 1 := by
    rw [div_lt_iff₀ (Nat.cast_pos.2 hb)]
    exact_mod_cast Nat.lt_mul_of_div_lt (Nat.lt_succ_self (a / b)) hb
  refine ⟨log_le_log hpos hle, (log_le_add hpos (hpos.trans_le hle)).trans ?_⟩
  gcongr
  linarith

/-! ## Digits of a mantissa -/

def Mantissa (w r : ℕ) : Prop := 2 ^ w ≤ r ∧ r < 2 ^ (w + 1)

/-- The carry of the square. -/
def digit (w r : ℕ) : ℕ := r * r / 2 ^ (2 * w + 1)

/-- The square without its carry. -/
def next (w r : ℕ) : ℕ := r * r / 2 ^ (w + digit w r)

/-- The first `n` binary digits, as one number. -/
def digits (w : ℕ) : ℕ → ℕ → ℕ
  | 0, _ => 0
  | n + 1, r => digit w r * 2 ^ n + digits w n (next w r)

section Digits
variable {w r : ℕ}

theorem square_mem (h : Mantissa w r) : 2 ^ (2 * w) ≤ r * r ∧ r * r < 2 ^ (2 * w + 2) := by
  obtain ⟨hlo, hhi⟩ := h
  have hlow : 2 ^ (2 * w) = 2 ^ w * 2 ^ w := by rw [two_mul, pow_add]
  have hhigh : 2 ^ (2 * w + 2) = 2 ^ (w + 1) * 2 ^ (w + 1) := by ring
  exact ⟨hlow ▸ Nat.mul_le_mul hlo hlo, hhigh ▸ Nat.mul_lt_mul'' hhi hhi⟩

theorem digit_le (h : Mantissa w r) : digit w r ≤ 1 := by
  have hhi := (square_mem h).2
  rw [pow_succ] at hhi
  unfold digit
  exact Nat.lt_succ_iff.1 (Nat.div_lt_of_lt_mul hhi)

theorem mantissa_next (h : Mantissa w r) : Mantissa w (next w r) := by
  obtain ⟨hlo, hhi⟩ := square_mem h
  have hpos : 0 < 2 ^ (w + digit w r) := Nat.two_pow_pos _
  unfold next Mantissa
  rw [Nat.le_div_iff_mul_le hpos, Nat.div_lt_iff_lt_mul hpos, ← pow_add, ← pow_add]
  have hdigit := digit_le h
  rcases Nat.le_one_iff_eq_zero_or_eq_one.1 hdigit with h0 | h1
  · have hlt : r * r < 2 ^ (2 * w + 1) := Nat.lt_of_div_eq_zero (Nat.two_pow_pos _) h0
    rw [h0, add_zero, ← two_mul, show w + 1 + w = 2 * w + 1 by omega]
    exact ⟨hlo, hlt⟩
  · have hle : 2 ^ (2 * w + 1) ≤ r * r := by
      have hdiv : 1 ≤ r * r / 2 ^ (2 * w + 1) := h1.ge
      simpa using (Nat.le_div_iff_mul_le (Nat.two_pow_pos _)).1 hdiv
    rw [h1, show w + (w + 1) = 2 * w + 1 by omega, show w + 1 + (w + 1) = 2 * w + 2 by omega]
    exact ⟨hle, hhi⟩

theorem digits_lt (h : Mantissa w r) (n : ℕ) : digits w n r < 2 ^ n := by
  induction n generalizing r with
  | zero => exact Nat.one_pos
  | succ n ih =>
    have hdigit := digit_le h
    have hrest := ih (mantissa_next h)
    unfold digits
    rw [pow_succ]
    nlinarith

/-- One squaring: twice the logarithm is the carry and the logarithm of what is left, up to its rounding. -/
theorem log_square (h : Mantissa w r) :
    digit w r * log 2 + log (next w r / 2 ^ w) ≤ 2 * log (r / 2 ^ w) ∧
      2 * log (r / 2 ^ w) ≤ digit w r * log 2 + log (next w r / 2 ^ w) + 1 / 2 ^ w := by
  have hr : (0 : ℝ) < r := Nat.cast_pos.2 ((Nat.two_pow_pos w).trans_le h.1)
  obtain ⟨hnext, -⟩ := mantissa_next h
  have hnextpos : 0 < next w r := (Nat.two_pow_pos w).trans_le hnext
  obtain ⟨hdown, hup⟩ := log_floor (a := r * r) (Nat.two_pow_pos (w + digit w r)) hnextpos
  change log (next w r) ≤ _ at hdown
  change _ ≤ log (next w r) + 1 / next w r at hup
  have hsquare : log (((r * r : ℕ) : ℝ) / ((2 ^ (w + digit w r) : ℕ) : ℝ)) =
      2 * log r - w * log 2 - digit w r * log 2 := by
    push_cast
    rw [log_div (by positivity) (by positivity), log_mul hr.ne' hr.ne', log_pow]
    push_cast
    ring
  have hcost : (1 : ℝ) / next w r ≤ 1 / 2 ^ w := by
    apply one_div_le_one_div_of_le (by positivity)
    exact_mod_cast hnext
  rw [hsquare] at hdown hup
  rw [log_div (Nat.cast_pos.2 hnextpos).ne' (by positivity), log_div hr.ne' (by positivity), log_pow]
  constructor <;> linarith

/-- The digits are the logarithm cut off: what is missing is less than one digit more, and the roundings. -/
theorem digits_log (h : Mantissa w r) (n : ℕ) :
    digits w n r * log 2 ≤ 2 ^ n * log (r / 2 ^ w) ∧
      2 ^ n * log (r / 2 ^ w) ≤ (digits w n r + 1) * log 2 + 2 ^ n / 2 ^ w := by
  induction n generalizing r with
  | zero =>
    have hw : (0 : ℝ) < 2 ^ w := by positivity
    have hlo : (1 : ℝ) ≤ r / 2 ^ w := by
      rw [one_le_div hw]
      exact_mod_cast h.1
    have hhi : (r / 2 ^ w : ℝ) ≤ 2 := by
      rw [div_le_iff₀ hw, mul_comm, ← pow_succ]
      exact_mod_cast h.2.le
    have hlog := log_le_log (by linarith) hhi
    have hnonneg := log_nonneg hlo
    have hcost : (0 : ℝ) ≤ 1 / 2 ^ w := by positivity
    simp only [digits, pow_zero, Nat.cast_zero, zero_mul, one_mul, zero_add]
    exact ⟨hnonneg, by linarith⟩
  | succ n ih =>
    obtain ⟨hlo, hhi⟩ := ih (mantissa_next h)
    obtain ⟨hdown, hup⟩ := log_square h
    have hpow : (0 : ℝ) < 2 ^ n := by positivity
    have hdown := mul_le_mul_of_nonneg_left hdown hpow.le
    have hup := mul_le_mul_of_nonneg_left hup hpow.le
    unfold digits
    push_cast
    rw [pow_succ]
    have hcost : (2 : ℝ) ^ n * (1 / 2 ^ w) = 2 ^ n / 2 ^ w := by ring
    have htwice : (2 : ℝ) ^ n * 2 / 2 ^ w = 2 ^ n / 2 ^ w + 2 ^ n / 2 ^ w := by ring
    rw [htwice]
    constructor <;> nlinarith

end Digits

end BinaryLog

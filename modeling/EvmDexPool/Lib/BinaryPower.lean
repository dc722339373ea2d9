import Mathlib.Algebra.Order.Floor.Semiring
import Mathlib.Data.Real.Basic
import Mathlib.Data.Nat.Bitwise
import Mathlib.Tactic

/-!
# Binary powers in fixed point

A number below one is a natural number `q ≤ S` in units of `S`. Its power is multiplied up from the
low bits of the exponent, every product truncated. Truncation never breaks the order of two powers
(`power_anti`): the product of the bits below `k` stays above the `k`-th square, whatever they are.
Against the exact power it loses little as long as that is large (`le_power`), and it does not reach
zero before the exact power is down to two units (`power_pos`).
-/

namespace BinaryPower

/-- The product of two numbers in units of `S`. -/
def mul (S a b : Nat) : Nat := a * b / S

/-- `q` to the `2^k`. -/
def square (S q : Nat) : Nat → Nat
  | 0 => q
  | k + 1 => mul S (square S q k) (square S q k)

/-- `q` to the low `k` bits of `y`. -/
def power (S q : Nat) : Nat → Nat → Nat
  | 0, _ => S
  | k + 1, y => if y.testBit k then mul S (power S q k y) (square S q k) else power S q k y

section Order
variable {S q : Nat}

theorem mul_le_left {a b : Nat} (hb : b ≤ S) : mul S a b ≤ a :=
  Nat.div_le_of_le_mul (by rw [Nat.mul_comm S]; exact Nat.mul_le_mul_left a hb)

theorem mul_le_right {a b : Nat} (ha : a ≤ S) : mul S a b ≤ b :=
  Nat.div_le_of_le_mul (Nat.mul_le_mul_right b ha)

theorem mul_mono {a a' b b' : Nat} (ha : a ≤ a') (hb : b ≤ b') : mul S a b ≤ mul S a' b' :=
  Nat.div_le_div_right (Nat.mul_le_mul ha hb)

theorem mod_succ (y k : Nat) : y % 2 ^ (k + 1) = y % 2 ^ k + if y.testBit k then 2 ^ k else 0 := by
  rw [Nat.pow_succ, Nat.mod_mul, Nat.testBit_eq_decide_div_mod_eq]
  rcases Nat.mod_two_eq_zero_or_one (y / 2 ^ k) with h | h <;> simp [h]

/-- The bits from `k` on do not count. -/
theorem power_of_lt {y k : Nat} (h : y < 2 ^ k) (n : Nat) : power S q (k + n) y = power S q k y := by
  induction n with
  | zero => rfl
  | succ n ih =>
    have hbit : y.testBit (k + n) = false :=
      Nat.testBit_lt_two_pow (h.trans_le (Nat.pow_le_pow_right (by decide) (Nat.le_add_right _ _)))
    rw [← Nat.add_assoc, power, hbit, if_neg Bool.false_ne_true, ih]

theorem power_zero (n : Nat) : power S q n 0 = S := by
  have h : power S q (0 + n) 0 = S := power_of_lt (by decide) n
  rwa [Nat.zero_add] at h

theorem power_one (hS : 0 < S) {n : Nat} (hn : 0 < n) : power S q n 1 = q := by
  obtain ⟨m, rfl⟩ := Nat.exists_eq_add_of_le' hn
  rw [Nat.add_comm, power_of_lt (by decide)]
  change (if (1 : Nat).testBit 0 then mul S S q else S) = q
  rw [if_pos (by decide)]
  exact Nat.mul_div_cancel_left q hS

variable (hq : q ≤ S)
include hq

theorem square_le (k : Nat) : square S q k ≤ S := by
  induction k with
  | zero => exact hq
  | succ k ih => exact (mul_le_left ih).trans ih

theorem power_le (k y : Nat) : power S q k y ≤ S := by
  induction k with
  | zero => exact le_rfl
  | succ k ih =>
    unfold power
    split
    · exact (mul_le_left (square_le hq k)).trans ih
    · exact ih

/-- A power of the low `k` bits is at least the next square. -/
theorem square_le_power (k y : Nat) : square S q k ≤ power S q k y := by
  induction k with
  | zero => exact hq
  | succ k ih =>
    change mul S (square S q k) (square S q k) ≤ power S q (k + 1) y
    unfold power
    split
    · exact mul_mono ih le_rfl
    · exact (mul_le_left (square_le hq k)).trans ih

/-- **Truncated powers fall with the exponent.** -/
theorem power_anti {k y y' : Nat} (h : y % 2 ^ k ≤ y' % 2 ^ k) : power S q k y' ≤ power S q k y := by
  induction k with
  | zero => exact le_rfl
  | succ k ih =>
    rw [mod_succ, mod_succ] at h
    have hy := Nat.mod_lt y' (Nat.two_pow_pos k)
    unfold power
    cases hb : y.testBit k <;> cases hb' : y'.testBit k <;>
      simp only [hb, hb', Bool.false_eq_true, if_true, if_false] at h ⊢
    · exact ih (by omega)
    · -- the highest bit in which they differ is set in `y'` only
      exact (mul_le_right (power_le hq k y')).trans (square_le_power hq k y)
    · omega
    · exact mul_mono (ih (by omega)) le_rfl

end Order

/-! ## Against the exact power -/

section Exact
variable {S q : Nat} (hS : 0 < S) (hq : q ≤ S)

theorem mul_le_exact (a b : Nat) : (mul S a b : ℝ) ≤ a * b / S := by
  have : ((a * b / S : Nat) : ℝ) ≤ (a * b : Nat) / (S : Nat) := Nat.cast_div_le
  push_cast at this
  exact this

include hS

theorem exact_sub_one_lt (a b : Nat) : (a * b / S : ℝ) - 1 < mul S a b := by
  have hS' : (0 : ℝ) < S := by exact_mod_cast hS
  have hlt : a * b < (mul S a b + 1) * S := by
    unfold mul
    rw [Nat.add_mul, Nat.one_mul]
    exact Nat.lt_div_mul_add hS
  rw [sub_lt_iff_lt_add, div_lt_iff₀ hS']
  exact_mod_cast hlt

theorem square_le_exact (k : Nat) : (square S q k : ℝ) ≤ S * (q / S : ℝ) ^ 2 ^ k := by
  have hS' : (0 : ℝ) < S := by exact_mod_cast hS
  induction k with
  | zero =>
    rw [pow_zero, pow_one, mul_div_cancel₀ _ hS'.ne']
    exact le_rfl
  | succ k ih =>
    calc (square S q (k + 1) : ℝ) ≤ square S q k * square S q k / S := mul_le_exact _ _
      _ ≤ (S * (q / S : ℝ) ^ 2 ^ k) * (S * (q / S : ℝ) ^ 2 ^ k) / S := by gcongr
      _ = S * (q / S : ℝ) ^ 2 ^ (k + 1) := by rw [pow_succ 2 k, pow_mul]; field_simp

/-- The truncated power is at most the exact one. -/
theorem power_le_exact (k y : Nat) : (power S q k y : ℝ) ≤ S * (q / S : ℝ) ^ (y % 2 ^ k) := by
  have hS' : (0 : ℝ) < S := by exact_mod_cast hS
  induction k with
  | zero => rw [pow_zero, Nat.mod_one, pow_zero, mul_one]; exact le_rfl
  | succ k ih =>
    rw [mod_succ]
    unfold power
    split
    · calc (mul S (power S q k y) (square S q k) : ℝ) ≤ power S q k y * square S q k / S := mul_le_exact _ _
        _ ≤ (S * (q / S : ℝ) ^ (y % 2 ^ k)) * (S * (q / S : ℝ) ^ 2 ^ k) / S := by
          gcongr
          exact square_le_exact hS k
        _ = S * (q / S : ℝ) ^ (y % 2 ^ k + 2 ^ k) := by rw [pow_add]; field_simp
    · rw [Nat.add_zero]
      exact ih

/-- A product of two numbers that lost a share each, where it is at least `T`. -/
theorem exact_le_mul {a b : Nat} {x y s r T : ℝ} (hT : 0 < T) (hx : 0 ≤ x) (hy : 0 ≤ y) (hr0 : 0 ≤ r) (hs0 : 0 ≤ s)
    (ha : S * x * (1 - s) ≤ a) (hb : S * y * (1 - r) ≤ b) (hr : r ≤ 1) (hbig : T ≤ S * (x * y)) :
    S * (x * y) * (1 - (s + r + 1 / T)) ≤ mul S a b := by
  have hS' : (0 : ℝ) < S := by exact_mod_cast hS
  have hprod : S * (x * y) * (1 - (s + r)) ≤ a * b / S := by
    rw [le_div_iff₀ hS']
    have hy' : 0 ≤ S * y * (1 - r) := by
      have : 0 ≤ 1 - r := by linarith
      positivity
    calc S * (x * y) * (1 - (s + r)) * S
        ≤ (S * x * (1 - s)) * (S * y * (1 - r)) := by
          have : 0 ≤ (S * x) * (S * y) * (s * r) := by positivity
          nlinarith
      _ ≤ a * (S * y * (1 - r)) := mul_le_mul_of_nonneg_right ha hy'
      _ ≤ a * b := mul_le_mul_of_nonneg_left hb (Nat.cast_nonneg a)
  have hone : 1 ≤ S * (x * y) * (1 / T) := by
    rw [mul_one_div, le_div_iff₀ hT, one_mul]
    exact hbig
  have := exact_sub_one_lt hS a b
  calc S * (x * y) * (1 - (s + r + 1 / T)) = S * (x * y) * (1 - (s + r)) - S * (x * y) * (1 / T) := by ring
    _ ≤ a * b / S - 1 := by linarith
    _ ≤ mul S a b := this.le

include hq

theorem rho_mem : 0 ≤ (q / S : ℝ) ∧ (q / S : ℝ) ≤ 1 := by
  have hS' : (0 : ℝ) < S := by exact_mod_cast hS
  refine ⟨by positivity, ?_⟩
  rw [div_le_one hS']
  exact_mod_cast hq

/-- While it is at least `T`, a square has lost at most `2^k - 1` in `T`. -/
theorem le_square {T : ℝ} (hT : 0 < T) {k : Nat} (hk : (2 : ℝ) ^ k ≤ T) (hbig : T ≤ S * (q / S : ℝ) ^ 2 ^ k) :
    S * (q / S : ℝ) ^ 2 ^ k * (1 - (2 ^ k - 1) / T) ≤ square S q k := by
  have hS' : (0 : ℝ) < S := by exact_mod_cast hS
  obtain ⟨hρ0, hρ1⟩ := rho_mem hS hq
  induction k with
  | zero =>
    rw [pow_zero, pow_one, pow_zero, sub_self, zero_div, sub_zero, mul_one, mul_div_cancel₀ _ hS'.ne']
    exact le_rfl
  | succ k ih =>
    have hpow : (1 : ℝ) ≤ 2 ^ k := one_le_pow₀ (by norm_num)
    have hk' : (2 : ℝ) ^ k ≤ T := by
      rw [pow_succ] at hk
      linarith
    have hbig' : T ≤ S * (q / S : ℝ) ^ 2 ^ k := hbig.trans <|
      mul_le_mul_of_nonneg_left (pow_le_pow_of_le_one hρ0 hρ1 (Nat.pow_le_pow_right (by decide) (Nat.le_succ k))) hS'.le
    have hstep := ih hk' hbig'
    have hsplit : (q / S : ℝ) ^ 2 ^ (k + 1) = (q / S : ℝ) ^ 2 ^ k * (q / S : ℝ) ^ 2 ^ k := by
      rw [← pow_add, pow_succ, Nat.mul_two]
    have hloss : (0 : ℝ) ≤ (2 ^ k - 1) / T := div_nonneg (by linarith) hT.le
    have hloss1 : ((2 : ℝ) ^ k - 1) / T ≤ 1 := by
      rw [div_le_one hT]
      linarith
    rw [hsplit] at hbig ⊢
    have := exact_le_mul hS hT (by positivity) (by positivity) hloss hloss hstep hstep hloss1 hbig
    refine le_trans (le_of_eq ?_) this
    rw [pow_succ]
    ring

/-- While it is at least `T`, a power has lost at most its exponent in `T`. -/
theorem le_power {T : ℝ} (hT : 0 < T) {k y : Nat} (hk : (2 : ℝ) ^ k ≤ T) (hbig : T ≤ S * (q / S : ℝ) ^ (y % 2 ^ k)) :
    S * (q / S : ℝ) ^ (y % 2 ^ k) * (1 - (y % 2 ^ k : Nat) / T) ≤ power S q k y := by
  have hS' : (0 : ℝ) < S := by exact_mod_cast hS
  obtain ⟨hρ0, hρ1⟩ := rho_mem hS hq
  induction k with
  | zero => simp [power, Nat.mod_one]
  | succ k ih =>
    have hpow : (1 : ℝ) ≤ 2 ^ k := one_le_pow₀ (by norm_num)
    have hk' : (2 : ℝ) ^ k ≤ T := by
      rw [pow_succ] at hk
      linarith
    have hless : ∀ {n : Nat}, n ≤ y % 2 ^ (k + 1) → T ≤ S * (q / S : ℝ) ^ n := fun hn =>
      hbig.trans (mul_le_mul_of_nonneg_left (pow_le_pow_of_le_one hρ0 hρ1 hn) hS'.le)
    have hmod := mod_succ y k
    unfold power
    split
    · rename_i hbit
      rw [if_pos hbit] at hmod
      have hlow := ih hk' (hless (by omega))
      have hsq := le_square hS hq hT hk' (hless (by omega))
      have hloss : (0 : ℝ) ≤ (2 ^ k - 1) / T := div_nonneg (by linarith) hT.le
      have hloss1 : ((2 : ℝ) ^ k - 1) / T ≤ 1 := by
        rw [div_le_one hT]
        linarith
      rw [hmod, pow_add] at hbig ⊢
      have := exact_le_mul hS hT (by positivity) (by positivity) hloss (by positivity) hlow hsq hloss1 hbig
      refine le_trans (le_of_eq ?_) this
      push_cast
      ring
    · rename_i hbit
      rw [if_neg hbit, Nat.add_zero] at hmod
      rw [hmod] at hbig ⊢
      exact ih hk' hbig

/-- A square of at least three units keeps seven eighths of them, but for one. -/
theorem square_large {T : ℝ} {k : Nat} (hT0 : 0 < T) (hkT : 16 * (2 : ℝ) ^ k ≤ T) (hTS : T ^ 2 ≤ S)
    (hthree : 3 ≤ S * (q / S : ℝ) ^ 2 ^ k) : S * (q / S : ℝ) ^ 2 ^ k * (7 / 8) - 1 ≤ square S q k := by
  have hS' : (0 : ℝ) < S := by exact_mod_cast hS
  obtain ⟨hρ0, hρ1⟩ := rho_mem hS hq
  cases k with
  | zero =>
    rw [pow_zero, pow_one, mul_div_cancel₀ _ hS'.ne']
    change (q : ℝ) * (7 / 8) - 1 ≤ q
    have : (0 : ℝ) ≤ q := Nat.cast_nonneg q
    linarith
  | succ k =>
    have hsplit : (q / S : ℝ) ^ 2 ^ (k + 1) = (q / S : ℝ) ^ 2 ^ k * (q / S : ℝ) ^ 2 ^ k := by
      rw [← pow_add, pow_succ, Nat.mul_two]
    rw [hsplit] at hthree ⊢
    rw [pow_succ] at hkT
    have hbig : T ≤ S * (q / S : ℝ) ^ 2 ^ k := by
      have hsq : T ^ 2 ≤ (S * (q / S : ℝ) ^ 2 ^ k) ^ 2 := by
        rw [mul_pow, sq (S : ℝ), sq ((q / S : ℝ) ^ 2 ^ k), mul_assoc]
        nlinarith
      exact le_of_sq_le_sq hsq (by positivity)
    have hlow := le_square hS hq hT0 (by linarith [pow_pos (show (0 : ℝ) < 2 by norm_num) k]) hbig
    have hloss : ((2 : ℝ) ^ k - 1) / T ≤ 1 / 32 := by
      rw [div_le_iff₀ hT0]
      linarith
    have hkeep : S * (q / S : ℝ) ^ 2 ^ k * (31 / 32) ≤ square S q k := by
      refine le_trans (mul_le_mul_of_nonneg_left ?_ (by positivity)) hlow
      linarith
    have hprod : S * ((q / S : ℝ) ^ 2 ^ k * (q / S : ℝ) ^ 2 ^ k) * (7 / 8) ≤ square S q k * square S q k / S := by
      rw [le_div_iff₀ hS']
      have := mul_le_mul hkeep hkeep (by positivity) (Nat.cast_nonneg _)
      nlinarith
    exact (sub_le_sub_right hprod 1).trans (exact_sub_one_lt hS _ _).le

/-- **A power does not run out before its exact value does**: with `n` bits of exponent to spare below the
square root of the unit, three units are enough. -/
theorem power_pos {T : ℝ} {n w : Nat} (hT : 8 * 2 ^ n ≤ T) (hTS : T ^ 2 ≤ S) (hw : w < 2 ^ n)
    (hthree : 3 ≤ S * (q / S : ℝ) ^ w) : 0 < power S q n w := by
  have hS' : (0 : ℝ) < S := by exact_mod_cast hS
  obtain ⟨hρ0, hρ1⟩ := rho_mem hS hq
  have hn : (1 : ℝ) ≤ 2 ^ n := one_le_pow₀ (by norm_num)
  have hT0 : 0 < T := by linarith
  obtain rfl | hw0 := Nat.eq_zero_or_pos w
  · rwa [power_zero]
  -- `w` is `2^k` and fewer
  obtain ⟨k, hk⟩ : ∃ k, k = w.log2 := ⟨_, rfl⟩
  have hlow : 2 ^ k ≤ w := hk ▸ Nat.log2_self_le (by omega)
  have hhigh : w < 2 ^ (k + 1) := hk ▸ Nat.lt_log2_self
  have hkn : k < n := (Nat.pow_lt_pow_iff_right (by decide)).1 (hlow.trans_lt hw)
  have hdouble : w < 2 ^ k + 2 ^ k := by
    rw [Nat.pow_succ] at hhigh
    omega
  have hbit : w.testBit k = true := by
    rw [Nat.testBit_eq_decide_div_mod_eq, show w / 2 ^ k = 1 from Nat.div_eq_of_lt_le (by omega) (by omega)]
    rfl
  have hmod : w % 2 ^ k = w - 2 ^ k := by
    rw [Nat.mod_eq_sub_mod hlow, Nat.mod_eq_of_lt (by omega)]
  have hpow : power S q n w = mul S (power S q k w) (square S q k) := by
    rw [show n = k + 1 + (n - (k + 1)) by omega, power_of_lt hhigh, power, if_pos hbit]
  -- the fewer leave at least the square root of the unit, and the square at least its own share
  have hkT : 16 * (2 : ℝ) ^ k ≤ T := by
    have : (2 : ℝ) ^ (k + 1) ≤ 2 ^ n := pow_le_pow_right₀ (by norm_num) hkn
    rw [pow_succ] at this
    linarith
  have hsplit : (q / S : ℝ) ^ w = (q / S : ℝ) ^ 2 ^ k * (q / S : ℝ) ^ (w % 2 ^ k) := by
    rw [hmod, ← pow_add, Nat.add_sub_cancel' hlow]
  have hfew : (q / S : ℝ) ^ 2 ^ k ≤ (q / S : ℝ) ^ (w % 2 ^ k) := pow_le_pow_of_le_one hρ0 hρ1 (by omega)
  have hfew1 : (q / S : ℝ) ^ (w % 2 ^ k) ≤ 1 := pow_le_one₀ hρ0 hρ1
  have hloss : ((w % 2 ^ k : Nat) : ℝ) / T ≤ 1 / 8 := by
    rw [div_le_iff₀ hT0]
    have : ((w % 2 ^ k : Nat) : ℝ) < 2 ^ k := by exact_mod_cast Nat.mod_lt w (Nat.two_pow_pos k)
    linarith
  rw [hsplit] at hthree
  have hsquare : S * (q / S : ℝ) ^ 2 ^ k * (7 / 8) - 1 ≤ square S q k :=
    square_large hS hq hT0 hkT hTS (hthree.trans (mul_le_mul_of_nonneg_left
      (mul_le_of_le_one_right (by positivity) hfew1) hS'.le))
  have hpower := le_power (y := w) hS hq hT0 (k := k) (by linarith) <| by
    have hsq : T ^ 2 ≤ (S * (q / S : ℝ) ^ (w % 2 ^ k)) ^ 2 :=
      calc T ^ 2 ≤ S := hTS
        _ ≤ S * (S * ((q / S : ℝ) ^ 2 ^ k * (q / S : ℝ) ^ (w % 2 ^ k))) := by nlinarith
        _ ≤ (S * (q / S : ℝ) ^ (w % 2 ^ k)) ^ 2 := by
          rw [mul_pow, sq, sq, mul_assoc]
          gcongr
    exact le_of_sq_le_sq hsq (by positivity)
  have hkeep : S * (q / S : ℝ) ^ (w % 2 ^ k) * (7 / 8) ≤ power S q k w := by
    refine le_trans (mul_le_mul_of_nonneg_left ?_ (by positivity)) hpower
    linarith
  have hu0 : 0 ≤ (q / S : ℝ) ^ 2 ^ k := by positivity
  rw [hpow]
  generalize (q / S : ℝ) ^ 2 ^ k = u at *
  generalize (q / S : ℝ) ^ (w % 2 ^ k) = v at *
  have hprod : (S : ℝ) ≤ power S q k w * square S q k := by
    have hSu : S * (u * v) ≤ S * u := mul_le_mul_of_nonneg_left (mul_le_of_le_one_right hu0 hfew1) hS'.le
    have hpos : 0 ≤ S * u * (7 / 8) - 1 := by linarith
    calc (S : ℝ) ≤ S * (S * (u * v) * (49 / 64) - v * (7 / 8)) := by nlinarith
      _ = S * v * (7 / 8) * (S * u * (7 / 8) - 1) := by ring
      _ ≤ power S q k w * (S * u * (7 / 8) - 1) := mul_le_mul_of_nonneg_right hkeep hpos
      _ ≤ power S q k w * square S q k := mul_le_mul_of_nonneg_left hsquare (Nat.cast_nonneg _)
  exact Nat.div_pos (by exact_mod_cast hprod) hS

end Exact

end BinaryPower

import EvmDexPool.Lib.Fixed
import Mathlib.Data.Int.ModEq
import Mathlib.Data.Nat.Bitwise
import Mathlib.Data.Nat.Factorization.Basic
import Mathlib.Tactic.Ring

/-!
# Dividing a two-word product

What code with `w`-bit words does to divide the product of two words by a third, when the quotient
is a word again: the high word of the product out of its residue modulo `2^w - 1`, the lowest set
bit of the divisor, and the inverse of an odd word by Newton steps.
-/

namespace Fixed

/-! ## The high word of a product -/

/-- A number of two digits in base `W`, read modulo `W - 1`: its digit sum, with one carry. -/
theorem mod_pred_of_digits {W p1 p0 : Nat} (h1 : p1 + 2 ≤ W) (h0 : p0 < W) :
    (W * p1 + p0) % (W - 1) = if p1 + p0 < W - 1 then p1 + p0 else p1 + p0 - (W - 1) := by
  have hsplit : W * p1 + p0 = (W - 1) * p1 + (p1 + p0) := by
    obtain ⟨V, rfl⟩ : ∃ V, W = V + 1 := ⟨W - 1, by omega⟩
    simp only [Nat.add_sub_cancel]; ring
  rw [hsplit, Nat.mul_add_mod]
  split
  · exact Nat.mod_eq_of_lt ‹_›
  · rw [Nat.mod_eq_sub_mod (by omega), Nat.mod_eq_of_lt (by omega)]

/-- The high word of a product of two words leaves room for a carry. -/
theorem mul_div_add_two_le {W a b : Nat} (hW : 2 ≤ W) (ha : a < W) (hb : b < W) : a * b / W + 2 ≤ W := by
  have hab : a * b ≤ (W - 1) * (W - 1) := Nat.mul_le_mul (by omega) (by omega)
  have hlt : a * b < (W - 1) * W :=
    calc a * b ≤ (W - 1) * (W - 1) := hab
      _ < (W - 1) * W := Nat.mul_lt_mul_of_pos_left (by omega) (by omega)
  have := (Nat.div_lt_iff_lt_mul (by omega)).2 hlt
  omega

/-- `mm - prod0 - (mm < prod0)`, for `mm` the product modulo `2^w - 1` and `prod0` its low word, is the
high word. -/
theorem highWord_eq {w a b : Nat} (hw : 0 < w) (ha : a < 2 ^ w) (hb : b < 2 ^ w) :
    wsub w (wsub w (a * b % (2 ^ w - 1)) (wmul w a b))
      (if a * b % (2 ^ w - 1) < wmul w a b then 1 else 0) = a * b / 2 ^ w := by
  have hW : 2 ≤ 2 ^ w := by
    calc 2 = 2 ^ 1 := rfl
      _ ≤ 2 ^ w := Nat.pow_le_pow_right (by decide) hw
  have h1 := mul_div_add_two_le hW ha hb
  have h0 : a * b % 2 ^ w < 2 ^ w := Nat.mod_lt _ (by omega)
  have hp : a * b = 2 ^ w * (a * b / 2 ^ w) + a * b % 2 ^ w := (Nat.div_add_mod _ _).symm
  have hmm := mod_pred_of_digits h1 h0
  rw [← hp] at hmm
  rw [hmm]
  unfold wmul
  generalize a * b / 2 ^ w = p1 at *
  generalize a * b % 2 ^ w = p0 at *
  by_cases hc : p1 + p0 < 2 ^ w - 1
  · have hsub : wsub w (p1 + p0) p0 = p1 := by rw [wsub_of_le (by omega) (by omega)]; omega
    rw [if_pos hc, if_neg (by omega), hsub, wsub_of_le (by omega) (by omega)]; omega
  · -- the digit sum passed the modulus once, and the borrow takes the carry back
    have hsub : wsub w (p1 + p0 - (2 ^ w - 1)) p0 = p1 + 1 := by
      rw [wsub_of_lt (by omega) (by omega)]; omega
    rw [if_neg hc, if_pos (by omega), hsub, wsub_of_le (by omega) (by omega)]; omega

/-! ## The lowest set bit -/

/-- An odd word and its two's complement share their lowest bit only. -/
theorem compl_and_odd {j m : Nat} (hm : m % 2 = 1) (hlt : m < 2 ^ j) : (2 ^ j - m) &&& m = 1 := by
  obtain ⟨i, rfl⟩ : ∃ i, j = i + 1 := ⟨j - 1, by cases j <;> simp at hlt ⊢; omega⟩
  obtain ⟨q, rfl⟩ : ∃ q, m = 2 * q + 1 := ⟨m / 2, by omega⟩
  have hq : q < 2 ^ i := by rw [Nat.pow_succ] at hlt; omega
  have hsub : 2 ^ (i + 1) - (2 * q + 1) = 2 * (2 ^ i - (q + 1)) + 1 := by rw [Nat.pow_succ]; omega
  rw [hsub]
  apply Nat.eq_of_testBit_eq
  intro n
  rw [Nat.testBit_and]
  cases n with
  | zero => simp
  | succ n =>
    rw [Nat.testBit_succ, Nat.testBit_succ, Nat.testBit_succ,
      show (2 * (2 ^ i - (q + 1)) + 1) / 2 = 2 ^ i - (q + 1) by omega, show (2 * q + 1) / 2 = q by omega,
      Nat.testBit_two_pow_sub_succ hq]
    cases q.testBit n <;> simp

/-- `(-d) & d` is the largest power of two that divides `d`. -/
theorem neg_and_self {w d : Nat} (h0 : 0 < d) (hd : d < 2 ^ w) :
    ∃ k m, k < w ∧ d = 2 ^ k * m ∧ m % 2 = 1 ∧ wneg w d &&& d = 2 ^ k := by
  obtain ⟨k, m, hm, rfl⟩ := Nat.exists_eq_two_pow_mul_odd h0.ne'
  have hm2 : m % 2 = 1 := Nat.odd_iff.1 hm
  have hk : k < w := by
    apply (Nat.pow_lt_pow_iff_right (by decide : 1 < 2)).1
    exact lt_of_le_of_lt (Nat.le_mul_of_pos_right _ (by omega)) hd
  have hW : 2 ^ w = 2 ^ k * 2 ^ (w - k) := by rw [← Nat.pow_add]; congr 1; omega
  have hlt : m < 2 ^ (w - k) := Nat.lt_of_mul_lt_mul_left (hW ▸ hd)
  refine ⟨k, m, hk, rfl, hm2, ?_⟩
  have hneg : wneg w (2 ^ k * m) = 2 ^ k * (2 ^ (w - k) - m) := by
    unfold wneg
    rw [Nat.mod_eq_of_lt (by omega), Nat.mul_sub, ← hW]
  calc wneg w (2 ^ k * m) &&& (2 ^ k * m) = ((2 ^ (w - k) - m) <<< k) &&& (m <<< k) := by
        rw [hneg, Nat.shiftLeft_eq, Nat.shiftLeft_eq, Nat.mul_comm m, Nat.mul_comm _ (2 ^ k)]
    _ = 2 ^ k := by rw [← Nat.shiftLeft_and_distrib, compl_and_odd hm2 hlt, Nat.shiftLeft_eq, Nat.one_mul]

/-! ## Inverses -/

theorem wadd_modEq (w a b : Nat) : (wadd w a b : Int) ≡ a + b [ZMOD 2 ^ w] := by
  unfold wadd; push_cast; exact Int.mod_modEq _ _

theorem wmul_modEq (w a b : Nat) : (wmul w a b : Int) ≡ a * b [ZMOD 2 ^ w] := by
  unfold wmul; push_cast; exact Int.mod_modEq _ _

theorem wsub_modEq {w a b : Nat} (hb : b ≤ 2 ^ w) : (wsub w a b : Int) ≡ a - b [ZMOD 2 ^ w] := by
  unfold wsub
  push_cast [hb]
  calc ((a : Int) + (2 ^ w - b)) % 2 ^ w ≡ a + (2 ^ w - b) [ZMOD 2 ^ w] := Int.mod_modEq _ _
    _ = a - b + 2 ^ w := by ring
    _ ≡ a - b [ZMOD 2 ^ w] := Int.add_modEq_right

/-- A Newton step doubles the number of bits an inverse is right in. -/
theorem newton_step {e : Nat} {d x : Int} (h : d * x ≡ 1 [ZMOD 2 ^ e]) :
    d * (x * (2 - d * x)) ≡ 1 [ZMOD 2 ^ (2 * e)] := by
  obtain ⟨q, hq⟩ := h.symm.dvd
  rw [Int.modEq_iff_dvd]
  refine ⟨q * q, ?_⟩
  calc 1 - d * (x * (2 - d * x)) = (d * x - 1) * (d * x - 1) := by ring
    _ = 2 ^ (2 * e) * (q * q) := by rw [hq]; ring

/-- The step as words compute it: `inv *= 2 - d * inv`. -/
def newtonInv (w d inv : Nat) : Nat := wmul w inv (wsub w 2 (wmul w d inv))

theorem newtonInv_modEq {w e d inv : Nat} (e' : Nat) (he : e' ≤ 2 * e) (hw : e' ≤ w)
    (h : (d * inv : Int) ≡ 1 [ZMOD 2 ^ e]) : (d * newtonInv w d inv : Int) ≡ 1 [ZMOD 2 ^ e'] := by
  have hstep : (newtonInv w d inv : Int) ≡ inv * (2 - d * inv) [ZMOD 2 ^ w] :=
    calc (newtonInv w d inv : Int)
        ≡ inv * (wsub w 2 (wmul w d inv) : Nat) [ZMOD 2 ^ w] := wmul_modEq _ _ _
      _ ≡ inv * ((2 : Nat) - (wmul w d inv : Nat)) [ZMOD 2 ^ w] :=
          (wsub_modEq (Nat.le_of_lt wmul_lt)).mul_left _
      _ ≡ inv * (2 - d * inv) [ZMOD 2 ^ w] := ((Int.ModEq.refl _).sub (wmul_modEq _ _ _)).mul_left _
  exact ((hstep.of_dvd (pow_dvd_pow 2 hw)).mul_left _).trans ((newton_step h).of_dvd (pow_dvd_pow 2 he))

/-- Three times an odd word, exclusive or two, inverts it in its four lowest bits. -/
theorem newtonSeed_modEq {w d : Nat} (hw : 4 ≤ w) (hd : d % 2 = 1) :
    (d * (wmul w 3 d ^^^ 2 : Nat) : Int) ≡ 1 [ZMOD 2 ^ 4] := by
  have hmod : (wmul w 3 d ^^^ 2) % 2 ^ 4 = (3 * (d % 16) % 16) ^^^ 2 := by
    rw [Nat.xor_mod_two_pow]
    unfold wmul
    rw [Nat.mod_mod_of_dvd _ (pow_dvd_pow 2 hw)]
    congr 1
    omega
  have hall : ∀ r : Fin 16, r.val % 2 = 1 → r.val * ((3 * r.val % 16) ^^^ 2) % 16 = 1 := by decide
  have hr := hall ⟨d % 16, by omega⟩ (by simp only; omega)
  have : (d * (wmul w 3 d ^^^ 2)) % 2 ^ 4 = 1 := by
    rw [Nat.mul_mod, hmod, ← Nat.mod_mod (d) (2 ^ 4)]
    simpa [Nat.mul_mod] using hr
  have hcast : ((d * (wmul w 3 d ^^^ 2) : Nat) : Int) ≡ ((1 : Nat) : Int) [ZMOD ((2 ^ 4 : Nat) : Int)] :=
    Int.natCast_modEq_iff.2 this
  push_cast at hcast
  exact_mod_cast hcast

/-! ## Two words as one number -/

/-- Subtraction with a borrow from the high word. -/
theorem sub_words {w n r : Nat} (hn : n / 2 ^ w < 2 ^ w) (hr : r < 2 ^ w) (hrn : r ≤ n) :
    wsub w (n / 2 ^ w) (if n % 2 ^ w < r then 1 else 0) = (n - r) / 2 ^ w ∧
      wsub w (n % 2 ^ w) r = (n - r) % 2 ^ w := by
  have hW := Nat.two_pow_pos w
  have h0 := Nat.mod_lt n hW
  have hsplit := Nat.div_add_mod n (2 ^ w)
  generalize n / 2 ^ w = n1 at *
  generalize n % 2 ^ w = n0 at *
  subst hsplit
  by_cases hb : n0 < r
  · have hn1 : 0 < n1 := by
      rcases Nat.eq_zero_or_pos n1 with rfl | h
      · simp at hrn; omega
      · exact h
    have hpred : 2 ^ w * n1 = 2 ^ w * (n1 - 1) + 2 ^ w := by
      rw [← Nat.mul_succ]; congr 1; omega
    have hsub : 2 ^ w * n1 + n0 - r = 2 ^ w * (n1 - 1) + (n0 + 2 ^ w - r) := by omega
    rw [if_pos hb, wsub_of_le hn1 hn, wsub_of_lt hb hr.le, hsub, Nat.mul_add_div hW, Nat.mul_add_mod,
      Nat.div_eq_of_lt (by omega), Nat.mod_eq_of_lt (by omega)]
    exact ⟨rfl, rfl⟩
  · have hsub : 2 ^ w * n1 + n0 - r = 2 ^ w * n1 + (n0 - r) := by omega
    rw [if_neg hb, wsub_of_le (Nat.zero_le _) hn, wsub_of_le (by omega) h0, hsub, Nat.mul_add_div hW,
      Nat.mul_add_mod, Nat.div_eq_of_lt (by omega), Nat.mod_eq_of_lt (by omega)]
    exact ⟨rfl, rfl⟩

/-- A shift to the right across two words. -/
theorem shiftRight_words {w k : Nat} (hk : k ≤ w) (n : Nat) :
    n % 2 ^ w / 2 ^ k ||| n / 2 ^ w * 2 ^ (w - k) % 2 ^ w = n / 2 ^ k % 2 ^ w := by
  apply Nat.eq_of_testBit_eq
  intro i
  simp only [Nat.testBit_or, Nat.testBit_div_two_pow, Nat.testBit_mod_two_pow, Nat.testBit_mul_two_pow]
  by_cases hlow : i + k < w
  · have : ¬w - k ≤ i := by omega
    simp [hlow, this, show i < w by omega]
  · have : w - k ≤ i := by omega
    simp [hlow, this, show i - (w - k) + w = i + k by omega]

/-- `product / a == b`: the product did not wrap. -/
theorem wmul_eq_of_div {w a b : Nat} (h : wmul w a b / a = b) : wmul w a b = a * b := by
  have hle : wmul w a b ≤ a * b := Nat.mod_le _ _
  have hge : a * b ≤ wmul w a b := by
    conv_lhs => rw [← h]
    exact Nat.mul_div_le _ _
  omega

/-! ## Rounding up -/

theorem ceilDiv_eq_ite {n d : Nat} (hd : 0 < d) : n ⌈/⌉ d = if n % d = 0 then n / d else n / d + 1 := by
  have hsplit := Nat.div_add_mod n d
  have hmod := Nat.mod_lt n hd
  rw [Nat.ceilDiv_eq_add_pred_div]
  generalize n / d = q at *
  generalize n % d = r at *
  subst hsplit
  split
  · rw [show d * q + r + d - 1 = d * q + (d - 1) by omega, Nat.mul_add_div hd, Nat.div_eq_of_lt (by omega)]; rfl
  · rw [show d * q + r + d - 1 = d * (q + 1) + (r - 1) by rw [Nat.mul_add]; omega, Nat.mul_add_div hd,
      Nat.div_eq_of_lt (by omega)]

end Fixed

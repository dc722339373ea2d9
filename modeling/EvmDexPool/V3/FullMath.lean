import EvmDexPool.Lib.WideMul
import EvmDexPool.Log

/-!
# Full-precision products (`v3/full_math.rs`)

Operators on `U256` wrap. Both divisions are exact (`mulDiv_eq`, `mulDivRoundingUp_eq`): they return
the quotient rounded as their name says when it is a word, and the one error otherwise.
-/

namespace EvmDexPool.V3

open Fixed

def U256_MAX : Nat := 2 ^ 256 - 1
def Q96 : Nat := 2 ^ 96

/-- `Uint::mul_mod`, which is zero for a modulus of zero. -/
def mulMod (a b modulus : Nat) : Nat := if modulus = 0 then 0 else a * b % modulus

/-- `prod_1` as both divisions start from it (full_math.rs:35-37, 86-88). -/
def prodHigh (a b : Nat) : Nat :=
  let mm := mulMod a b U256_MAX
  let prod0 := wmul 256 a b
  wsub 256 (wsub 256 mm prod0) (if mm < prod0 then 1 else 0)

/-- The inverse of an odd denominator modulo `2^256` (full_math.rs:57-63): each step doubles the bits
it is right in, from the four of the seed. -/
def invWord (denominator : Nat) : Nat :=
  let inv := wmul 256 3 denominator ^^^ 2
  let inv := newtonInv 256 denominator inv
  let inv := newtonInv 256 denominator inv
  let inv := newtonInv 256 denominator inv
  let inv := newtonInv 256 denominator inv
  let inv := newtonInv 256 denominator inv
  newtonInv 256 denominator inv

/-- A two-word multiple of the denominator, divided by it (full_math.rs:51-65): the power of two
first, then the odd part. -/
def divMultiple (prod1 prod0 denominator : Nat) : Nat :=
  let twos := wneg 256 denominator &&& denominator
  let denominator := denominator / twos
  let prod0 := prod0 / twos
  let twos := wadd 256 (wneg 256 twos / twos) 1
  let prod0 := prod0 ||| wmul 256 prod1 twos
  wmul 256 prod0 (invWord denominator)

/-- `mul_div` (full_math.rs:34). -/
def mulDiv (a b denominator : Nat) : Except Fault Nat :=
  let prod0 := wmul 256 a b
  let prod1 := prodHigh a b
  if denominator ≤ prod1 then .error (.error "MulDiv overflow")
  else if prod1 = 0 then .ok (prod0 / denominator)
  else
    let remainder := mulMod a b denominator
    .ok (divMultiple (wsub 256 prod1 (if remainder > prod0 then 1 else 0)) (wsub 256 prod0 remainder) denominator)

/-- `mul_div_rounding_up` (full_math.rs:71). -/
def mulDivRoundingUp (a b denominator : Nat) : Except Fault Nat := do
  let result ← mulDiv a b denominator
  if mulMod a b denominator = 0 then .ok result
  else if result = U256_MAX then .error (.error "MulDiv overflow")
  else .ok (wadd 256 result 1)

/-- `mul_div_q96` (full_math.rs:85). -/
def mulDivQ96 (a b : Nat) : Except Fault Nat :=
  let prod0 := wmul 256 a b
  let prod1 := prodHigh a b
  if prod1 ≥ Q96 then .error (.error "MulDiv overflow")
  else .ok (prod0 / 2 ^ 96 ||| prod1 * 2 ^ 160 % 2 ^ 256)

theorem invWord_modEq {d : Nat} (hd : d % 2 = 1) : (d * invWord d : Int) ≡ 1 [ZMOD 2 ^ 256] := by
  have h4 := newtonSeed_modEq (w := 256) (by decide) hd
  have h8 := newtonInv_modEq (w := 256) 8 (by decide) (by decide) h4
  have h16 := newtonInv_modEq (w := 256) 16 (by decide) (by decide) h8
  have h32 := newtonInv_modEq (w := 256) 32 (by decide) (by decide) h16
  have h64 := newtonInv_modEq (w := 256) 64 (by decide) (by decide) h32
  have h128 := newtonInv_modEq (w := 256) 128 (by decide) (by decide) h64
  exact newtonInv_modEq 256 (by decide) (by decide) h128

section Words
variable {a b : Nat} (ha : a < 2 ^ 256) (hb : b < 2 ^ 256)
include ha hb

theorem prodHigh_eq : prodHigh a b = a * b / 2 ^ 256 := highWord_eq (by decide) ha hb

theorem prodHigh_lt : a * b / 2 ^ 256 < 2 ^ 256 := by
  have := mul_div_add_two_le (by decide) ha hb
  omega

end Words

/-- The quotient is a word exactly when the divisor is above the high word. -/
theorem prodHigh_lt_iff {a b d : Nat} (hd : 0 < d) : a * b / 2 ^ 256 < d ↔ a * b / d < 2 ^ 256 := by
  rw [Nat.div_lt_iff_lt_mul (Nat.two_pow_pos _), Nat.div_lt_iff_lt_mul hd, Nat.mul_comm d]

/-- The last multiplication: a multiple `m * q` of the odd part, times its inverse. -/
theorem wmul_inv_eq {m q inv n : Nat} (hq : q < 2 ^ 256) (hn : n = m * q % 2 ^ 256)
    (hinv : (m * inv : Int) ≡ 1 [ZMOD 2 ^ 256]) : wmul 256 n inv = q := by
  have hcong : (wmul 256 n inv : Int) ≡ q [ZMOD 2 ^ 256] :=
    calc (wmul 256 n inv : Int) ≡ n * inv [ZMOD 2 ^ 256] := wmul_modEq _ _ _
      _ ≡ (m * q) * inv [ZMOD 2 ^ 256] := by
          refine Int.ModEq.mul_right _ ?_
          rw [hn]; push_cast; exact Int.mod_modEq _ _
      _ = (m * inv) * q := by ring
      _ ≡ 1 * q [ZMOD 2 ^ 256] := hinv.mul_right _
      _ = q := by ring
  have hnat : wmul 256 n inv ≡ q [MOD 2 ^ 256] := by
    rw [← Int.natCast_modEq_iff]; push_cast; exact hcong
  exact hnat.eq_of_lt_of_lt wmul_lt hq

/-- `-twos / twos + 1` is `2^256 / twos`, as a word. -/
theorem twos_eq {k : Nat} (hk : k < 256) :
    wadd 256 (wneg 256 (2 ^ k) / 2 ^ k) 1 = 2 ^ (256 - k) % 2 ^ 256 := by
  have hW : (2 : Nat) ^ 256 = 2 ^ k * 2 ^ (256 - k) := by rw [← Nat.pow_add]; congr 1; omega
  have hpos := Nat.two_pow_pos k
  have hpos' := Nat.two_pow_pos (256 - k)
  have hneg : wneg 256 (2 ^ k) / 2 ^ k = 2 ^ (256 - k) - 1 := by
    unfold wneg
    rw [Nat.mod_eq_of_lt (by omega), hW, show 2 ^ k * 2 ^ (256 - k) - 2 ^ k = 2 ^ k * (2 ^ (256 - k) - 1) by
      rw [Nat.mul_sub, Nat.mul_one], Nat.mul_div_cancel_left _ hpos]
  rw [hneg]
  unfold wadd
  rw [Nat.sub_add_cancel hpos']

/-- A two-word multiple is divided exactly, when the quotient is a word. -/
theorem divMultiple_eq {d q : Nat} (h0 : 0 < d) (hd : d < 2 ^ 256) (hq : q < 2 ^ 256) :
    divMultiple (d * q / 2 ^ 256) (d * q % 2 ^ 256) d = q := by
  obtain ⟨k, m, hk, rfl, hodd, htwos⟩ := neg_and_self h0 hd
  have hpos := Nat.two_pow_pos k
  have hwords : 2 ^ k * m * q % 2 ^ 256 / 2 ^ k |||
      wmul 256 (2 ^ k * m * q / 2 ^ 256) (2 ^ (256 - k) % 2 ^ 256) = m * q % 2 ^ 256 := by
    rw [wmul, Nat.mul_mod_mod, shiftRight_words hk.le, Nat.mul_assoc, Nat.mul_div_cancel_left _ hpos]
  unfold divMultiple
  rw [htwos]
  dsimp only
  rw [twos_eq hk, Nat.mul_div_cancel_left _ hpos]
  exact wmul_inv_eq hq hwords (invWord_modEq hodd)

/-- **`mul_div` is exact**: the quotient rounded down when it is a word, an error otherwise. -/
theorem mulDiv_eq {a b d : Nat} (ha : a < 2 ^ 256) (hb : b < 2 ^ 256) (hd : d < 2 ^ 256) :
    mulDiv a b d =
      if 0 < d ∧ a * b / d < 2 ^ 256 then .ok (a * b / d) else .error (.error "MulDiv overflow") := by
  unfold mulDiv
  rw [prodHigh_eq ha hb]
  dsimp only
  rcases Nat.eq_zero_or_pos d with rfl | hpos
  · rw [if_pos (Nat.zero_le _), if_neg (by omega)]
  by_cases hover : d ≤ a * b / 2 ^ 256
  · rw [if_pos hover, if_neg (fun h => absurd ((prodHigh_lt_iff hpos).2 h.2) (by omega))]
  have hq : a * b / d < 2 ^ 256 := (prodHigh_lt_iff hpos).1 (by omega)
  rw [if_neg hover, if_pos (And.intro hpos hq)]
  by_cases hhigh : a * b / 2 ^ 256 = 0
  · have hlt : a * b < 2 ^ 256 := by
      rcases Nat.div_eq_zero_iff.1 hhigh with h | h
      · exact absurd h (by decide)
      · exact h
    rw [if_pos hhigh, wmul_of_lt hlt]
  · have hrem : mulMod a b d = a * b % d := if_neg hpos.ne'
    have hremlt := Nat.mod_lt (a * b) hpos
    obtain ⟨hw1, hw0⟩ := sub_words (prodHigh_lt ha hb) (by omega) (Nat.mod_le (a * b) d)
    have hmul : a * b - a * b % d = d * (a * b / d) := by
      have := Nat.div_add_mod (a * b) d
      omega
    rw [if_neg hhigh, hrem, wmul, hw1, hw0, hmul, divMultiple_eq hpos hd hq]

/-- **`mul_div_rounding_up` is exact**: the quotient rounded up when it is a word. -/
theorem mulDivRoundingUp_eq {a b d : Nat} (ha : a < 2 ^ 256) (hb : b < 2 ^ 256) (hd : d < 2 ^ 256) :
    mulDivRoundingUp a b d =
      if 0 < d ∧ a * b ⌈/⌉ d < 2 ^ 256 then .ok (a * b ⌈/⌉ d) else .error (.error "MulDiv overflow") := by
  unfold mulDivRoundingUp
  rw [mulDiv_eq ha hb hd]
  rcases Nat.eq_zero_or_pos d with rfl | hpos
  · rw [if_neg (by omega), if_neg (by omega)]; rfl
  rw [show mulMod a b d = a * b % d from if_neg hpos.ne', ceilDiv_eq_ite hpos]
  generalize a * b / d = q
  by_cases hq : q < 2 ^ 256
  · rw [if_pos (And.intro hpos hq), ok_bind]
    by_cases hrem : a * b % d = 0
    · rw [if_pos hrem, if_pos hrem, if_pos (And.intro hpos hq)]
    · rw [if_neg hrem, if_neg hrem]
      by_cases hmax : q = U256_MAX
      · rw [if_pos hmax, if_neg (by unfold U256_MAX at hmax; omega)]
      · have hlt : q + 1 < 2 ^ 256 := by unfold U256_MAX at hmax; omega
        rw [if_neg hmax, if_pos (And.intro hpos hlt), wadd_of_lt hlt]
  · rw [if_neg (by omega), error_bind, if_neg (by split <;> omega)]

/-- **`mul_div_q96` is exact.** -/
theorem mulDivQ96_eq {a b : Nat} (ha : a < 2 ^ 256) (hb : b < 2 ^ 256) :
    mulDivQ96 a b =
      if a * b / 2 ^ 96 < 2 ^ 256 then .ok (a * b / 2 ^ 96) else .error (.error "MulDiv overflow") := by
  have hiff : a * b / 2 ^ 256 < Q96 ↔ a * b / 2 ^ 96 < 2 ^ 256 := prodHigh_lt_iff (by decide)
  unfold mulDivQ96
  rw [prodHigh_eq ha hb]
  dsimp only
  by_cases hover : a * b / 2 ^ 256 ≥ Q96
  · rw [if_pos hover, if_neg (fun h => absurd (hiff.2 h) (by omega))]
  · have hq := hiff.1 (by omega)
    have hwords := shiftRight_words (w := 256) (k := 96) (by decide) (a * b)
    rw [if_neg hover, if_pos hq, wmul, hwords, Nat.mod_eq_of_lt hq]

/-- **All three are exact**: floor, ceiling, and the floor at `2^96`, where they are words, and the one
error otherwise. -/
theorem fullMath_exact {a b d : Nat} (ha : a < 2 ^ 256) (hb : b < 2 ^ 256) (hd : d < 2 ^ 256) :
    (mulDiv a b d =
      if 0 < d ∧ a * b / d < 2 ^ 256 then .ok (a * b / d) else .error (.error "MulDiv overflow")) ∧
    (mulDivRoundingUp a b d =
      if 0 < d ∧ a * b ⌈/⌉ d < 2 ^ 256 then .ok (a * b ⌈/⌉ d) else .error (.error "MulDiv overflow")) ∧
    (mulDivQ96 a b =
      if a * b / 2 ^ 96 < 2 ^ 256 then .ok (a * b / 2 ^ 96) else .error (.error "MulDiv overflow")) :=
  ⟨mulDiv_eq ha hb hd, mulDivRoundingUp_eq ha hb hd, mulDivQ96_eq ha hb⟩

/-- Two full words over an even denominator. -/
theorem fullMath_exact_words :
    mulDiv (2 ^ 256 - 1) (2 ^ 256 - 1) (2 ^ 256 - 2) =
      if 0 < 2 ^ 256 - 2 ∧ (2 ^ 256 - 1) * (2 ^ 256 - 1) / (2 ^ 256 - 2) < 2 ^ 256
      then .ok ((2 ^ 256 - 1) * (2 ^ 256 - 1) / (2 ^ 256 - 2)) else .error (.error "MulDiv overflow") :=
  (fullMath_exact (by decide) (by decide) (by decide)).1

/-! What a caller reads off a product that went through. -/

theorem mulDiv_ok {a b d q : Nat} (ha : a < 2 ^ 256) (hb : b < 2 ^ 256) (hd : d < 2 ^ 256)
    (h : mulDiv a b d = .ok q) : 0 < d ∧ q < 2 ^ 256 ∧ q = a * b / d := by
  rw [mulDiv_eq ha hb hd] at h
  split at h
  · obtain ⟨hpos, hlt⟩ := ‹0 < d ∧ _›
    cases h
    exact ⟨hpos, hlt, rfl⟩
  · cases h

theorem mulDivRoundingUp_ok {a b d q : Nat} (ha : a < 2 ^ 256) (hb : b < 2 ^ 256) (hd : d < 2 ^ 256)
    (h : mulDivRoundingUp a b d = .ok q) : 0 < d ∧ q < 2 ^ 256 ∧ q = a * b ⌈/⌉ d := by
  rw [mulDivRoundingUp_eq ha hb hd] at h
  split at h
  · obtain ⟨hpos, hlt⟩ := ‹0 < d ∧ _›
    cases h
    exact ⟨hpos, hlt, rfl⟩
  · cases h

theorem divMultiple_lt {prod1 prod0 d : Nat} : divMultiple prod1 prod0 d < 2 ^ 256 := wmul_lt

theorem mulDiv_lt {a b d q : Nat} (h : mulDiv a b d = .ok q) : q < 2 ^ 256 := by
  unfold mulDiv at h
  dsimp only at h
  split at h
  · cases h
  split at h
  · rw [← Except.ok.inj h]
    exact Nat.lt_of_le_of_lt (Nat.div_le_self _ _) wmul_lt
  · rw [← Except.ok.inj h]
    exact divMultiple_lt

theorem mulDivRoundingUp_lt {a b d q : Nat} (h : mulDivRoundingUp a b d = .ok q) : q < 2 ^ 256 := by
  unfold mulDivRoundingUp at h
  obtain ⟨r, hr, h⟩ := bind_eq_ok.1 h
  split at h
  · cases h
    exact mulDiv_lt hr
  split at h
  · cases h
  · rw [← Except.ok.inj h]
    exact wadd_lt

end EvmDexPool.V3

import Mathlib.Algebra.Order.Floor.Div
import Mathlib.Tactic.Linarith

/-!
# Fixed-width integers

A `w`-bit unsigned integer is a natural number below `2 ^ w`, a signed one an integer in
`[-2^(w-1), 2^(w-1))`. The operations below are the ones languages with native and library
words offer: wrapping, saturating, checked and narrowing. Saturating subtraction of unsigned
words is `Nat`'s own.
-/

namespace Fixed

/-! ## Unsigned -/

def wadd (w a b : Nat) : Nat := (a + b) % 2 ^ w
def wsub (w a b : Nat) : Nat := (a + (2 ^ w - b)) % 2 ^ w
def wmul (w a b : Nat) : Nat := a * b % 2 ^ w
def wneg (w a : Nat) : Nat := (2 ^ w - a) % 2 ^ w

def satAdd (w a b : Nat) : Nat := min (a + b) (2 ^ w - 1)
def satMul (w a b : Nat) : Nat := min (a * b) (2 ^ w - 1)

def checkedAdd (w a b : Nat) : Option Nat := if a + b < 2 ^ w then some (a + b) else none
def checkedSub (a b : Nat) : Option Nat := if b ≤ a then some (a - b) else none

/-- A wider value taken into `w` bits, refused when it does not fit. -/
def narrow (w n : Nat) : Option Nat := if n < 2 ^ w then some n else none

theorem satAdd_of_lt {w a b : Nat} (h : a + b < 2 ^ w) : satAdd w a b = a + b := by
  unfold satAdd; omega

theorem narrow_eq_some {w n m : Nat} : narrow w n = some m ↔ n < 2 ^ w ∧ m = n := by
  unfold narrow; split <;> simp_all [eq_comm]

theorem narrow_of_lt {w n : Nat} (h : n < 2 ^ w) : narrow w n = some n := if_pos h

theorem narrow_eq_none {w n : Nat} : narrow w n = none ↔ 2 ^ w ≤ n := by
  unfold narrow; split <;> simp_all

theorem wadd_lt {w a b : Nat} : wadd w a b < 2 ^ w := Nat.mod_lt _ (Nat.two_pow_pos w)
theorem wsub_lt {w a b : Nat} : wsub w a b < 2 ^ w := Nat.mod_lt _ (Nat.two_pow_pos w)
theorem wmul_lt {w a b : Nat} : wmul w a b < 2 ^ w := Nat.mod_lt _ (Nat.two_pow_pos w)

theorem wadd_of_lt {w a b : Nat} (h : a + b < 2 ^ w) : wadd w a b = a + b := Nat.mod_eq_of_lt h

theorem wmul_of_lt {w a b : Nat} (h : a * b < 2 ^ w) : wmul w a b = a * b := Nat.mod_eq_of_lt h

theorem wsub_of_le {w a b : Nat} (h : b ≤ a) (ha : a < 2 ^ w) : wsub w a b = a - b := by
  unfold wsub
  rw [show a + (2 ^ w - b) = a - b + 2 ^ w by omega, Nat.add_mod_right, Nat.mod_eq_of_lt (by omega)]

theorem wsub_of_lt {w a b : Nat} (h : a < b) (hb : b ≤ 2 ^ w) : wsub w a b = a + 2 ^ w - b := by
  unfold wsub
  rw [Nat.mod_eq_of_lt (by omega)]; omega

/-! ## Signed -/

/-- The signed reading of a `w`-bit word. -/
def toSigned (w n : Nat) : Int := if n < 2 ^ (w - 1) then n else (n : Int) - 2 ^ w

/-- The two's-complement word of an integer. -/
def ofSigned (w : Nat) (i : Int) : Nat := (i % 2 ^ w).toNat

/-- An integer taken into `w` bits as a cast takes it. -/
def wrapSigned (w : Nat) (i : Int) : Int := toSigned w (ofSigned w i)

/-- Clamp onto the `w`-bit signed range: the result of a saturating signed operation. -/
def satSigned (w : Nat) (i : Int) : Int := max (-(2 ^ (w - 1))) (min i (2 ^ (w - 1) - 1))

theorem toSigned_of_lt {w n : Nat} (h : n < 2 ^ (w - 1)) : toSigned w n = n := if_pos h

theorem satSigned_of_mem {w : Nat} {i : Int} (h1 : -(2 ^ (w - 1)) ≤ i) (h2 : i < 2 ^ (w - 1)) :
    satSigned w i = i := by
  unfold satSigned; omega

theorem ofSigned_natCast {w n : Nat} (h : n < 2 ^ w) : ofSigned w n = n := by
  unfold ofSigned
  have h' : ((n : Int) % 2 ^ w) = n := Int.emod_eq_of_lt (by omega) (by exact_mod_cast h)
  rw [h']; rfl

theorem wrapSigned_of_mem {w : Nat} {i : Int} (hw : 0 < w) (h1 : -(2 ^ (w - 1)) ≤ i) (h2 : i < 2 ^ (w - 1)) :
    wrapSigned w i = i := by
  obtain ⟨v, rfl⟩ : ∃ v, w = v + 1 := ⟨w - 1, by omega⟩
  rw [Nat.add_sub_cancel] at h1 h2
  have hpow : (2 : Int) ^ (v + 1) = 2 * 2 ^ v := by rw [pow_succ, mul_comm]
  have hcast : ((2 ^ v : Nat) : Int) = 2 ^ v := by push_cast; rfl
  unfold wrapSigned ofSigned toSigned
  rw [Nat.add_sub_cancel, hpow]
  by_cases hneg : i < 0
  · have hmod : i % (2 * 2 ^ v) = i + 2 * 2 ^ v := by
      rw [← Int.add_emod_right, Int.emod_eq_of_lt (by omega) (by omega)]
    rw [hmod, if_neg (by omega)]
    omega
  · have hmod : i % (2 * 2 ^ v) = i := Int.emod_eq_of_lt (by omega) (by omega)
    rw [hmod, if_pos (by omega)]
    omega

end Fixed

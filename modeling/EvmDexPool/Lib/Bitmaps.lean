import Mathlib.Data.Nat.Bitwise
import Mathlib.Algebra.Order.Ring.Nat
import Mathlib.Data.Nat.Cast.Order.Ring
import Mathlib.Algebra.Order.Ring.Int
import Mathlib.Algebra.Order.SuccPred
import Mathlib.Data.Int.SuccPred
import Mathlib.Data.Nat.SuccPred
import Mathlib.Tactic.Ring
import Mathlib.Tactic.GCongr

/-!
# Sets of numbers as bitmap words

A word of `w` bits holds the set of its set bits. A layer of words keeps the numbers `k * w + b`: the word
of the key `k` has the bit `b`. Layers nest: the keys of one are the numbers of the layer above it.
-/

namespace Bitmaps

/-! ## One word -/

/-- The word with the bits that `p` takes. -/
def word (w : Nat) (p : Nat → Bool) : Nat := Nat.ofBits fun i : Fin w => p i

/-- The bits of a word, from the lowest, each looked at by its mask. -/
def bits (w n : Nat) : List Nat := (List.range w).filter fun b => n &&& (1 <<< b) ≠ 0

theorem mask_iff (n b : Nat) : n &&& (1 <<< b) ≠ 0 ↔ n.testBit b = true := by
  rw [Nat.one_shiftLeft, Nat.and_two_pow]
  cases n.testBit b <;> simp

theorem mem_bits {w n b : Nat} : b ∈ bits w n ↔ b < w ∧ n.testBit b = true := by
  unfold bits
  rw [List.mem_filter, List.mem_range, decide_eq_true_iff, mask_iff]

theorem bits_sorted (w n : Nat) : (bits w n).Pairwise (· < ·) := List.pairwise_lt_range.filter _

theorem word_congr {w : Nat} {p q : Nat → Bool} (h : ∀ b < w, p b = q b) : word w p = word w q := by
  unfold word
  congr 1
  funext i
  exact h i i.isLt

theorem mem_bits_word {w b : Nat} {p : Nat → Bool} : b ∈ bits w (word w p) ↔ b < w ∧ p b = true := by
  rw [mem_bits, word]
  refine and_congr_right fun h => ?_
  rw [Nat.testBit_ofBits_lt _ b h]

@[simp] theorem bits_zero (w : Nat) : bits w 0 = [] := by
  simp [bits]

theorem word_eq_zero {w : Nat} {p : Nat → Bool} : word w p = 0 ↔ ∀ b < w, p b = false := by
  constructor
  · intro h b hb
    by_contra hp
    rw [Bool.not_eq_false] at hp
    have hmem : b ∈ bits w (word w p) := mem_bits_word.2 ⟨hb, hp⟩
    rw [h, bits_zero] at hmem
    cases hmem
  · intro h
    refine Nat.eq_of_testBit_eq fun b => ?_
    rw [word, Nat.testBit_ofBits, Nat.zero_testBit]
    split
    · next hb => exact h b hb
    · rfl

/-! ## A layer of words -/

section Layer
variable {R : Type} [CommSemiring R] [LinearOrder R] [IsStrictOrderedRing R] [SuccAddOrder R]

/-- The numbers that the words of `keys` hold. -/
def layer (w : Nat) (keys : List R) (words : R → Nat) : List R :=
  keys.flatMap fun k => (bits w (words k)).map fun b : Nat => k * w + (b : R)

omit [LinearOrder R] [IsStrictOrderedRing R] [SuccAddOrder R] in
theorem mem_layer {w : Nat} {keys : List R} {words : R → Nat} {x : R} :
    x ∈ layer w keys words ↔ ∃ k ∈ keys, ∃ b ∈ bits w (words k), x = k * w + b := by
  simp [layer, eq_comm]

/-- What a word holds lies below what the word of a later key holds. -/
theorem key_lt {w b c : Nat} {k l : R} (hb : b < w) (h : k < l) : k * w + b < l * w + (c : R) := by
  have hkl : k + 1 ≤ l := Order.add_one_le_of_lt h
  have hbw : (b : R) < w := Nat.cast_lt.2 hb
  have hw : (0 : R) ≤ w := Nat.cast_nonneg w
  have hc : (0 : R) ≤ c := Nat.cast_nonneg c
  calc k * w + b < k * w + w := by gcongr
    _ = (k + 1) * w := by ring
    _ ≤ l * w := by gcongr
    _ ≤ l * w + c := le_add_of_nonneg_right hc

theorem layer_sorted {w : Nat} {keys : List R} {words : R → Nat} (h : keys.Pairwise (· < ·)) :
    (layer w keys words).Pairwise (· < ·) := by
  unfold layer
  rw [List.pairwise_flatMap]
  constructor
  · intro k _
    rw [List.pairwise_map]
    refine (bits_sorted w (words k)).imp fun {b c} hbc => ?_
    have hcast : (b : R) < c := Nat.cast_lt.2 hbc
    gcongr
  · refine h.imp fun {k l} hkl x hx y hy => ?_
    obtain ⟨b, hb, rfl⟩ := List.mem_map.1 hx
    obtain ⟨c, -, rfl⟩ := List.mem_map.1 hy
    exact key_lt (mem_bits.1 hb).1 hkl

omit [LinearOrder R] [IsStrictOrderedRing R] [SuccAddOrder R] in
/-- Words that hold the numbers of `S` under them give those back. -/
theorem mem_layer_word {w : Nat} {keys : List R} {words : R → Nat} {S : R → Prop} [DecidablePred S]
    (hwords : ∀ k ∈ keys, words k = word w fun b => S (k * w + b)) {x : R} :
    x ∈ layer w keys words ↔ S x ∧ ∃ k ∈ keys, ∃ b < w, x = k * w + b := by
  rw [mem_layer]
  constructor
  · rintro ⟨k, hk, b, hb, rfl⟩
    rw [hwords k hk, mem_bits_word, decide_eq_true_iff] at hb
    exact ⟨hb.2, k, hk, b, hb.1, rfl⟩
  · rintro ⟨hS, k, hk, b, hb, rfl⟩
    refine ⟨k, hk, b, ?_, rfl⟩
    rw [hwords k hk, mem_bits_word, decide_eq_true_iff]
    exact ⟨hb, hS⟩

end Layer

end Bitmaps

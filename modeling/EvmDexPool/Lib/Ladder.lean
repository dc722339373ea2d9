import Mathlib.Algebra.Order.BigOperators.Group.Finset
import Mathlib.Order.OrderDual
import Mathlib.Tactic.Linarith

/-!
# Two goods on a ladder

One good stands on the rungs from some place up and the other on those from it down, and what a rung holds is worth something at
its own weights. When the place moves and no rung comes to hold less worth, then of the two goods together one cannot have become
less without the other having become more (`Standing.upper_paid`, `Standing.lower_paid`), whatever the weights are.
-/

namespace Ladder

variable {ι : Type*} [LinearOrder ι]

/-- `x` is on no rung below `a` and `y` on none above it. -/
structure Standing (x y : ι → ℕ) (a : ι) : Prop where
  below : ∀ i, i < a → x i = 0
  above : ∀ i, a < i → y i = 0

/-- Upside down the goods change places. -/
theorem Standing.dual {x y : ι → ℕ} {a : ι} (h : Standing x y a) : @Standing ιᵒᵈ _ y x a :=
  ⟨fun i hi => h.above i hi, fun i hi => h.below i hi⟩

variable {x y x' y' u v : ι → ℕ} {a a' : ι} {s : Finset ι}

/-- A rung that has come to hold less of one good and no less worth holds more of the other. -/
theorem rung_paid {x y x' y' u v : ℕ} (hworth : u * x + v * y ≤ u * x' + v * y') (hu : x ≠ 0 → 0 < u) (hx : x' < x) : y < y' := by
  have hlt : u * x' < u * x := Nat.mul_lt_mul_of_pos_left hx (hu (by omega))
  exact Nat.lt_of_mul_lt_mul_left (a := v) (by omega)

/-- A rung that has come to hold no more of one good and no less worth holds no less of the other. -/
theorem rung_kept {x y x' y' u v : ℕ} (hworth : u * x + v * y ≤ u * x' + v * y') (hv : y ≠ 0 → 0 < v) (hx : x' ≤ x) : y ≤ y' := by
  by_cases hy : y = 0
  · rw [hy]
    exact Nat.zero_le _
  · have hle : u * x' ≤ u * x := Nat.mul_le_mul_left u hx
    exact Nat.le_of_mul_le_mul_left (by omega) (hv hy)

/-- **The good above is paid for with the one below.** -/
theorem Standing.upper_paid (h : Standing x y a) (h' : Standing x' y' a')
    (hworth : ∀ i ∈ s, u i * x i + v i * y i ≤ u i * x' i + v i * y' i) (hu : ∀ i ∈ s, x i ≠ 0 → 0 < u i)
    (hv : ∀ i ∈ s, y i ≠ 0 → 0 < v i) (hless : ∑ i ∈ s, x' i < ∑ i ∈ s, x i) : ∑ i ∈ s, y i < ∑ i ∈ s, y' i := by
  obtain ⟨j, hj, hxj⟩ := Finset.exists_lt_of_sum_lt hless
  have hyj : y j < y' j := rung_paid (hworth j hj) (hu j hj) hxj
  -- The rung is between the two places, so that every rung below it has lost all it had of the good above.
  have haj : a ≤ j := by
    by_contra hlt
    rw [h.below j (not_le.1 hlt)] at hxj
    exact absurd hxj (Nat.not_lt_zero _)
  have hja : j ≤ a' := by
    by_contra hlt
    rw [h'.above j (not_le.1 hlt)] at hyj
    exact absurd hyj (Nat.not_lt_zero _)
  refine Finset.sum_lt_sum (fun i hi => ?_) ⟨j, hj, hyj⟩
  rcases lt_trichotomy i j with hij | rfl | hij
  · refine rung_kept (hworth i hi) (hv i hi) ?_
    rw [h'.below i (hij.trans_le hja)]
    exact Nat.zero_le _
  · exact hyj.le
  · rw [h.above i (haj.trans_lt hij)]
    exact Nat.zero_le _

/-- **The good below is paid for with the one above.** -/
theorem Standing.lower_paid (h : Standing x y a) (h' : Standing x' y' a')
    (hworth : ∀ i ∈ s, u i * x i + v i * y i ≤ u i * x' i + v i * y' i) (hu : ∀ i ∈ s, x i ≠ 0 → 0 < u i)
    (hv : ∀ i ∈ s, y i ≠ 0 → 0 < v i) (hless : ∑ i ∈ s, y' i < ∑ i ∈ s, y i) : ∑ i ∈ s, x i < ∑ i ∈ s, x' i := by
  refine @Standing.upper_paid ιᵒᵈ _ y x y' x' v u a a' s h.dual h'.dual (fun i hi => ?_) hv hu hless
  have := hworth i hi
  omega

end Ladder

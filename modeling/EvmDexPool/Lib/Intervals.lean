import Mathlib.Data.Finsupp.Order
import Mathlib.Algebra.BigOperators.Finsupp.Basic
import Mathlib.Tactic.Linarith

/-!
# Weights on intervals

A book puts a natural weight on finitely many half-open intervals of a linear order. At a point it
has a gross weight (of the intervals that end there, at either end), a net weight (what comes in
going up less what goes out) and an active weight (of the intervals around the point). All three are
additive in the book, which is all that is needed to follow weights being put on and taken off.
-/

namespace Intervals

/-- A non-empty half-open interval. -/
structure Interval (κ : Type) [LT κ] where
  lower : κ
  upper : κ
  lt : lower < upper
deriving DecidableEq

abbrev Book (κ : Type) [LT κ] := Interval κ →₀ ℕ

variable {κ : Type} [LinearOrder κ]

noncomputable section

def gross (b : Book κ) (t : κ) : ℕ := b.sum fun r n => if t = r.lower ∨ t = r.upper then n else 0

def net (b : Book κ) (t : κ) : ℤ := b.sum fun r n => if t = r.lower then n else if t = r.upper then -n else 0

def active (b : Book κ) (t : κ) : ℕ := b.sum fun r n => if r.lower ≤ t ∧ t < r.upper then n else 0

end

/-! ## Each is additive -/

@[simp] theorem gross_zero (t : κ) : gross (0 : Book κ) t = 0 := Finsupp.sum_zero_index
@[simp] theorem net_zero (t : κ) : net (0 : Book κ) t = 0 := Finsupp.sum_zero_index
@[simp] theorem active_zero (t : κ) : active (0 : Book κ) t = 0 := Finsupp.sum_zero_index

@[simp] theorem gross_single (r : Interval κ) (n : ℕ) (t : κ) :
    gross (Finsupp.single r n) t = if t = r.lower ∨ t = r.upper then n else 0 :=
  Finsupp.sum_single_index (by simp)

@[simp] theorem net_single (r : Interval κ) (n : ℕ) (t : κ) :
    net (Finsupp.single r n) t = if t = r.lower then (n : ℤ) else if t = r.upper then -(n : ℤ) else 0 :=
  Finsupp.sum_single_index (by simp)

@[simp] theorem active_single (r : Interval κ) (n : ℕ) (t : κ) :
    active (Finsupp.single r n) t = if r.lower ≤ t ∧ t < r.upper then n else 0 :=
  Finsupp.sum_single_index (by simp)

@[simp] theorem gross_add (b c : Book κ) (t : κ) : gross (b + c) t = gross b t + gross c t :=
  Finsupp.sum_add_index' (by simp) fun r m n => by split <;> simp

@[simp] theorem net_add (b c : Book κ) (t : κ) : net (b + c) t = net b t + net c t :=
  Finsupp.sum_add_index' (by simp) fun r m n => by
    split
    · simp
    · split
      · push_cast; omega
      · simp

@[simp] theorem active_add (b c : Book κ) (t : κ) : active (b + c) t = active b t + active c t :=
  Finsupp.sum_add_index' (by simp) fun r m n => by split <;> simp

/-! ## Taking weight off an interval -/

theorem sub_add_single {b : Book κ} {r : Interval κ} {n : ℕ} (h : n ≤ b r) :
    b - Finsupp.single r n + Finsupp.single r n = b :=
  tsub_add_cancel_of_le (Finsupp.single_le_iff.2 h)

variable {b : Book κ} {r : Interval κ} {n : ℕ}

theorem gross_sub (h : n ≤ b r) (t : κ) :
    gross (b - Finsupp.single r n) t + (if t = r.lower ∨ t = r.upper then n else 0) = gross b t := by
  rw [← gross_single, ← gross_add, sub_add_single h]

theorem net_sub (h : n ≤ b r) (t : κ) :
    net (b - Finsupp.single r n) t + (if t = r.lower then (n : ℤ) else if t = r.upper then -(n : ℤ) else 0) =
      net b t := by
  rw [← net_single, ← net_add, sub_add_single h]

theorem active_sub (h : n ≤ b r) (t : κ) :
    active (b - Finsupp.single r n) t + (if r.lower ≤ t ∧ t < r.upper then n else 0) = active b t := by
  rw [← active_single, ← active_add, sub_add_single h]

/-! ## Bounds -/

/-- A point has gross weight exactly when some interval with weight ends there. -/
theorem gross_eq_zero {t : κ} : gross b t = 0 ↔ ∀ r ∈ b.support, ¬ (t = r.lower ∨ t = r.upper) := by
  unfold gross Finsupp.sum
  rw [Finset.sum_eq_zero_iff]
  refine forall₂_congr fun r hr => ?_
  have hne : b r ≠ 0 := Finsupp.mem_support_iff.1 hr
  dsimp only
  split <;> simp_all

theorem abs_net_le_gross (b : Book κ) (t : κ) : |net b t| ≤ gross b t := by
  unfold net gross Finsupp.sum
  push_cast
  refine (Finset.abs_sum_le_sum_abs _ _).trans (Finset.sum_le_sum fun r _ => ?_)
  split
  · next h => simp [h]
  · split
    · next h => simp [h]
    · rw [abs_zero]; split <;> omega

theorem net_eq_zero {t : κ} (h : gross b t = 0) : net b t = 0 := by
  have := abs_net_le_gross b t
  rw [h] at this
  exact abs_nonpos_iff.1 this

/-! ## All points together -/

/-- The weight of the whole book. -/
noncomputable def weight (b : Book κ) : ℕ := b.sum fun _ n => n

theorem gross_le_weight (b : Book κ) (t : κ) : gross b t ≤ weight b :=
  Finset.sum_le_sum fun r _ => by dsimp only; split <;> omega

theorem active_le_weight (b : Book κ) (t : κ) : active b t ≤ weight b :=
  Finset.sum_le_sum fun r _ => by dsimp only; split <;> omega

/-- Every interval ends at two points. -/
theorem sum_gross {T : Finset κ} (hT : ∀ r ∈ b.support, r.lower ∈ T ∧ r.upper ∈ T) : ∑ t ∈ T, gross b t = 2 * weight b := by
  unfold gross weight Finsupp.sum
  rw [Finset.sum_comm, Finset.mul_sum]
  refine Finset.sum_congr rfl fun r hr => ?_
  have hsplit : ∀ t, (if t = r.lower ∨ t = r.upper then b r else 0) =
      (if t = r.lower then b r else 0) + if t = r.upper then b r else 0 := fun t => by
    have hlt := r.lt.ne
    by_cases hl : t = r.lower
    · simp [hl, hlt]
    · simp [hl]
  simp only [hsplit, Finset.sum_add_distrib, Finset.sum_ite_eq', (hT r hr).1, (hT r hr).2, if_true]
  omega

/-- Going up by one takes in the net weight of the point. -/
theorem active_step (b : Book ℤ) (t : ℤ) : (active b t : ℤ) = active b (t - 1) + net b t := by
  induction b using Finsupp.induction_linear with
  | zero => simp
  | add b c hb hc =>
    rw [active_add, active_add, net_add]
    push_cast
    omega
  | single r n =>
    have hlt := r.lt
    rw [active_single, active_single, net_single]
    push_cast
    split <;> split <;> split <;> (try split) <;> omega

/-- Below every interval nothing is active, and neither is it above. -/
theorem active_eq_zero {t : κ} (h : ∀ r ∈ b.support, t < r.lower ∨ r.upper ≤ t) : active b t = 0 := by
  refine Finset.sum_eq_zero fun r hr => if_neg fun hin => ?_
  rcases h r hr with hlt | hle
  · exact hin.1.not_gt hlt
  · exact hin.2.not_ge hle

end Intervals

import EvmDexPool.Lib.Ranges
import Mathlib.Algebra.BigOperators.Ring.List
import Mathlib.Algebra.Order.Ring.Defs
import Mathlib.Order.Interval.Set.Basic

/-!
# Densities that jump

A map files jumps under keys that lie at places of a linear order. The density at a place is the sum
of the jumps up to there, and a gauge measures the order in a ring. The content up to a place is then
an integral: between two places with no jump in between it grows by the density times what the gauge
grows by (`content_sub`). Where the density is never negative, the contents by two gauges rise and rest
together (`Rises`).
-/

namespace Densities

open Std Ranges

section Content
variable {κ υ P R : Type} [LinearOrder κ] [LinearOrder P] [Ring R] {m : ExtTreeMap κ υ} {place : κ → P} {jump : υ → R} {gauge : P → R} {below : κ → Bool} {x y x' y' : P}

/-- The content up to a place, up to a constant. -/
def content (m : ExtTreeMap κ υ) (place : κ → P) (jump : υ → R) (gauge : P → R) (x : P) : R :=
  sumRange m (fun _ => true) fun k v => jump v * gauge (max x (place k))

/-- Every jump lies below both places or above both. -/
structure Clear (m : ExtTreeMap κ υ) (place : κ → P) (below : κ → Bool) (x y : P) : Prop where
  low : ∀ k v, m[k]? = some v → below k = true → place k ≤ x
  high : ∀ k v, m[k]? = some v → below k = false → y ≤ place k

theorem Clear.within (h : Clear m place below x y) (hx : x ≤ x') (hy : y' ≤ y) : Clear m place below x' y' :=
  ⟨fun k v hk hb => (h.low k v hk hb).trans hx, fun k v hk hb => hy.trans (h.high k v hk hb)⟩

/-- Between jumps the content grows by the density times the gauge's growth. -/
theorem content_sub (hxy : x ≤ y) (h : Clear m place below x y) :
    content m place jump gauge y - content m place jump gauge x =
      sumRange m below (fun _ v => jump v) * (gauge y - gauge x) := by
  unfold content sumRange range
  rw [List.filter_true]
  have hlow : ∀ e ∈ m.toList, below e.1 = true → place e.1 ≤ x := fun e he =>
    h.low e.1 e.2 (ExtTreeMap.mem_toList_iff_getElem?_eq_some.1 he)
  have hhigh : ∀ e ∈ m.toList, below e.1 = false → y ≤ place e.1 := fun e he =>
    h.high e.1 e.2 (ExtTreeMap.mem_toList_iff_getElem?_eq_some.1 he)
  clear h
  generalize m.toList = l at *
  induction l with
  | nil => simp
  | cons e l ih =>
    have hl := ih (fun e' he' => hlow e' (List.mem_cons_of_mem _ he')) fun e' he' => hhigh e' (List.mem_cons_of_mem _ he')
    rw [List.map_cons, List.sum_cons, List.map_cons, List.sum_cons, add_sub_add_comm, hl]
    dsimp only
    cases hb : below e.1 with
    | true =>
      have hle := hlow e List.mem_cons_self hb
      rw [List.filter_cons, if_pos hb, List.map_cons, List.sum_cons, max_eq_left hle,
        max_eq_left (hle.trans hxy), add_mul, ← mul_sub]
    | false =>
      have hle := hhigh e List.mem_cons_self hb
      rw [List.filter_cons, if_neg (by simp [hb]), max_eq_right hle, max_eq_right (hxy.trans hle), sub_self, zero_add]

end Content

/-! ## Two contents of one density -/

section Rises
variable {P R : Type} [PartialOrder R] {f g : P → R} {x y z : P}

/-- Both rise from `x` to `y`, or both rest. -/
def Rises (f g : P → R) (x y : P) : Prop := f x = f y ∧ g x = g y ∨ f x < f y ∧ g x < g y

theorem Rises.trans (h : Rises f g x y) (h' : Rises f g y z) : Rises f g x z := by
  rcases h with ⟨hf, hg⟩ | ⟨hf, hg⟩
  · rw [Rises, hf, hg]
    exact h'
  · rcases h' with ⟨hf', hg'⟩ | ⟨hf', hg'⟩
    · exact .inr ⟨hf' ▸ hf, hg' ▸ hg⟩
    · exact .inr ⟨hf.trans hf', hg.trans hg'⟩

variable [LinearOrder P]

/-- Rising from every place of a set to every later one. -/
def RisesOn (f g : P → R) (s : Set P) : Prop := ∀ x ∈ s, ∀ y ∈ s, x ≤ y → Rises f g x y

theorem RisesOn.mono {s t : Set P} (h : RisesOn f g t) (hst : s ⊆ t) : RisesOn f g s := fun x hx y hy hxy =>
  h x (hst hx) y (hst hy) hxy

theorem RisesOn.join (h : RisesOn f g (Set.Icc x y)) (h' : RisesOn f g (Set.Icc y z)) : RisesOn f g (Set.Icc x z) := by
  intro u hu v hv huv
  rcases le_total v y with hvy | hyv
  · exact h u ⟨hu.1, huv.trans hvy⟩ v ⟨hv.1, hvy⟩ huv
  rcases le_total u y with huy | hyu
  · exact (h u ⟨hu.1, huy⟩ y ⟨hu.1.trans huy, le_rfl⟩ huy).trans (h' y ⟨le_rfl, hyv.trans hv.2⟩ v ⟨hyv, hv.2⟩ hyv)
  · exact h' u ⟨hyu, hu.2⟩ v ⟨hyv, hv.2⟩ huv

/-- What is no more by the one is no more by the other. -/
theorem RisesOn.le_of_le {s : Set P} (h : RisesOn f g s) (hx : x ∈ s) (hy : y ∈ s) (hle : g x ≤ g y) : f x ≤ f y := by
  rcases le_total x y with hxy | hyx
  · rcases h x hx y hy hxy with ⟨hf, -⟩ | ⟨hf, -⟩
    · exact hf.le
    · exact hf.le
  · rcases h y hy x hx hyx with ⟨hf, -⟩ | ⟨-, hg⟩
    · exact hf.ge
    · exact absurd hle hg.not_ge

/-- A stretch is joined to a place outside of it by one from a place inside. -/
theorem RisesOn.extend {w : P} (h : RisesOn f g (Set.Icc x y)) (hw : w ∈ Set.Icc x y)
    (h' : RisesOn f g (Set.Icc (min w z) (max w z))) : RisesOn f g (Set.Icc (min x z) (max y z)) := by
  rcases le_total z x with hzx | hxz
  · rw [min_eq_right hzx, max_eq_left (hzx.trans (hw.1.trans hw.2))]
    rw [min_eq_right (hzx.trans hw.1), max_eq_left (hzx.trans hw.1)] at h'
    exact (h'.mono (Set.Icc_subset_Icc le_rfl hw.1)).join h
  rw [min_eq_left hxz]
  rcases le_total z y with hzy | hyz
  · rwa [max_eq_left hzy]
  · rw [max_eq_right hyz]
    rw [min_eq_left (hw.2.trans hyz), max_eq_right (hw.2.trans hyz)] at h'
    exact h.join (h'.mono (Set.Icc_subset_Icc hw.2 le_rfl))

theorem RisesOn.swap {s : Set P} (h : RisesOn f g s) : RisesOn g f s := fun x hx y hy hxy =>
  (h x hx y hy hxy).imp And.symm And.symm

end Rises

/-- Over a stretch of one density, not negative, the contents by two strictly rising gauges rise together. -/
theorem content_risesOn {κ υ P R : Type} [LinearOrder κ] [LinearOrder P] [Ring R] [LinearOrder R] [IsStrictOrderedRing R] {m : ExtTreeMap κ υ} {place : κ → P}
    {jump : υ → R} {gauge gauge' : P → R} {below : κ → Bool} {x y : P} (h : Clear m place below x y)
    (hnonneg : 0 ≤ sumRange m below fun _ v => jump v) (hg : StrictMonoOn gauge (Set.Icc x y))
    (hg' : StrictMonoOn gauge' (Set.Icc x y)) :
    RisesOn (content m place jump gauge) (content m place jump gauge') (Set.Icc x y) := by
  intro u hu v hv huv
  have hclear := h.within hu.1 hv.2
  have hsub : content m place jump gauge v - content m place jump gauge u = _ := content_sub huv hclear
  have hsub' : content m place jump gauge' v - content m place jump gauge' u = _ := content_sub huv hclear
  rcases hnonneg.eq_or_lt with hzero | hpos
  · rw [← hzero, zero_mul, sub_eq_zero] at hsub hsub'
    exact .inl ⟨hsub.symm, hsub'.symm⟩
  rcases huv.eq_or_lt with rfl | hlt
  · exact .inl ⟨rfl, rfl⟩
  refine .inr ⟨sub_pos.1 ?_, sub_pos.1 ?_⟩
  · rw [hsub]
    exact mul_pos hpos (sub_pos.2 (hg hu hv hlt))
  · rw [hsub']
    exact mul_pos hpos (sub_pos.2 (hg' hu hv hlt))

end Densities

import Std.Data.ExtTreeMap
import Mathlib.Order.Basic
import Mathlib.Data.List.Count
import Mathlib.Data.List.Sort
import Mathlib.Algebra.Order.BigOperators.Group.List
import Mathlib.Algebra.BigOperators.Group.Finset.Basic
import Mathlib.Algebra.Order.Ring.Nat

/-!
# Range queries on an ordered map

`Std.ExtTreeMap` is the ordered map: lookup, insertion and removal, and two maps with the same
lookups are equal. What is added here is iteration over a range of keys, in key order, as the
entries of the map whose key satisfies a predicate: what its first and last entry are, and how
a sum over the range changes when the range takes in one more key.
-/

namespace Ranges

open Std

variable {κ υ : Type} [LinearOrder κ]

/-- What every operation on a map with keys in `κ` asks for. -/
instance transCmp : TransCmp (compare : κ → κ → Ordering) := inferInstance

/-! ## Lookups -/

theorem lookup_insert (m : ExtTreeMap κ υ) (k t : κ) (v : υ) :
    (m.insert k v)[t]? = if t = k then some v else m[t]? := by
  rw [ExtTreeMap.getElem?_insert]
  simp [eq_comm (a := t)]

theorem lookup_erase (m : ExtTreeMap κ υ) (k t : κ) : (m.erase k)[t]? = if t = k then none else m[t]? := by
  rw [ExtTreeMap.getElem?_erase]
  simp [eq_comm (a := t)]

/-! ## Ranges -/

/-- The entries whose key satisfies `p`, in key order. -/
def range (m : ExtTreeMap κ υ) (p : κ → Bool) : List (κ × υ) :=
  m.toList.filter fun e => p e.1

section
variable {m : ExtTreeMap κ υ} {p q : κ → Bool}

theorem mem_range {k : κ} {v : υ} : (k, v) ∈ range m p ↔ m[k]? = some v ∧ p k = true := by
  simp [range, List.mem_filter, ExtTreeMap.mem_toList_iff_getElem?_eq_some]

theorem range_sorted (m : ExtTreeMap κ υ) (p : κ → Bool) :
    (range m p).Pairwise fun a b => a.1 < b.1 := by
  have h := ExtTreeMap.ordered_keys_toList (t := m)
  exact (h.imp fun hab => compare_lt_iff_lt.1 hab).sublist List.filter_sublist

theorem range_nodup (m : ExtTreeMap κ υ) (p : κ → Bool) : (range m p).Nodup :=
  (range_sorted m p).imp fun h he => by simp [he] at h

/-! ## Lists filed by key -/

/-- The elements that `f` finds in the entries, each with its key. -/
def entries {β : Type} (m : ExtTreeMap κ υ) (f : υ → List β) : List (κ × β) :=
  m.toList.flatMap fun e => (f e.2).map fun x => (e.1, x)

theorem count_flatMap_key {β : Type} [DecidableEq β] {es : List (κ × υ)} {f : υ → List β} {k : κ}
    (hs : es.Pairwise fun a b => a.1 < b.1) (x : β) :
    (∀ v, (k, v) ∈ es → (es.flatMap fun e => (f e.2).map fun x => (e.1, x)).count (k, x) = (f v).count x) ∧
      ((∀ v, (k, v) ∉ es) → (es.flatMap fun e => (f e.2).map fun x => (e.1, x)).count (k, x) = 0) := by
  induction es with
  | nil => simp
  | cons e es ih =>
    obtain ⟨hlt, hes⟩ := List.pairwise_cons.1 hs
    obtain ⟨hmem, hnot⟩ := ih hes
    rw [List.flatMap_cons, List.count_append]
    by_cases he : e.1 = k
    · subst he
      have hrest : ∀ v, (e.1, v) ∉ es := fun v hv => (hlt (e.1, v) hv).false
      rw [hnot hrest, List.count_map_of_injective _ _ (Prod.mk_right_injective e.1), Nat.add_zero]
      refine ⟨fun v hv => ?_, fun h => absurd (List.mem_cons_self (a := e)) (h e.2)⟩
      rcases List.mem_cons.1 hv with he | hv
      · rw [← he]
      · exact absurd hv (hrest v)
    · have hhead : ((f e.2).map fun x => (e.1, x)).count (k, x) = 0 := by
        refine List.count_eq_zero_of_not_mem fun h => ?_
        obtain ⟨y, -, hy⟩ := List.mem_map.1 h
        exact he (congrArg Prod.fst hy)
      rw [hhead, Nat.zero_add]
      refine ⟨fun v hv => ?_, fun h => hnot fun v hv => h v (List.mem_cons_of_mem _ hv)⟩
      rcases List.mem_cons.1 hv with rfl | hv
      · exact absurd rfl he
      · exact hmem v hv

/-- An element is filed under a key as often as the key's entry has it. -/
theorem count_entries {β : Type} [DecidableEq β] (m : ExtTreeMap κ υ) (f : υ → List β) (k : κ) (x : β) :
    (entries m f).count (k, x) = ((m[k]?).elim [] f).count x := by
  have hs : m.toList.Pairwise fun a b => a.1 < b.1 := by
    have h := range_sorted m fun _ => true
    rwa [range, List.filter_true] at h
  obtain ⟨hmem, hnot⟩ := count_flatMap_key (f := f) (k := k) hs x
  unfold entries
  cases hv : m[k]? with
  | none =>
    refine hnot fun v h => ?_
    rw [ExtTreeMap.mem_toList_iff_getElem?_eq_some, hv] at h
    cases h
  | some v => exact hmem v (ExtTreeMap.mem_toList_iff_getElem?_eq_some.2 hv)

/-! ## The ends of a range -/

/-- The last entry is the one at the greatest key in the range. -/
theorem range_getLast {k : κ} {v : υ} (h : (range m p).getLast? = some (k, v)) :
    m[k]? = some v ∧ p k = true ∧ ∀ k' v', m[k']? = some v' → p k' = true → k' ≤ k := by
  obtain ⟨ys, hys⟩ := List.getLast?_eq_some_iff.1 h
  have hs := range_sorted m p
  have hk : (k, v) ∈ range m p := by simp [hys]
  rw [hys, List.pairwise_append] at hs
  refine ⟨(mem_range.1 hk).1, (mem_range.1 hk).2, fun k' v' hm hp => ?_⟩
  have hmem : (k', v') ∈ ys ++ [(k, v)] := hys ▸ mem_range.2 ⟨hm, hp⟩
  rcases List.mem_append.1 hmem with h' | h'
  · exact (hs.2.2 _ h' _ (List.mem_singleton_self _)).le
  · simp only [List.mem_singleton, Prod.mk.injEq] at h'
    exact h'.1.le

/-- The first entry is the one at the least key in the range. -/
theorem range_head {k : κ} {v : υ} (h : (range m p).head? = some (k, v)) :
    m[k]? = some v ∧ p k = true ∧ ∀ k' v', m[k']? = some v' → p k' = true → k ≤ k' := by
  obtain ⟨ys, hys⟩ := List.head?_eq_some_iff.1 h
  have hs := range_sorted m p
  have hk : (k, v) ∈ range m p := by simp [hys]
  rw [hys, List.pairwise_cons] at hs
  refine ⟨(mem_range.1 hk).1, (mem_range.1 hk).2, fun k' v' hm hp => ?_⟩
  have hmem : (k', v') ∈ (k, v) :: ys := hys ▸ mem_range.2 ⟨hm, hp⟩
  rcases List.mem_cons.1 hmem with h' | h'
  · simp only [Prod.mk.injEq] at h'
    exact h'.1.ge
  · exact (hs.1 _ h').le

theorem range_empty (h : range m p = []) {k : κ} {v : υ} (hm : m[k]? = some v) : p k = false := by
  have : (k, v) ∉ range m p := by simp [h]
  simpa [mem_range, hm] using this

/-! ## Sums over a range -/

section Sum
variable {M : Type} [AddCommMonoid M]

def sumRange (m : ExtTreeMap κ υ) (p : κ → Bool) (f : κ → υ → M) : M :=
  ((range m p).map fun e => f e.1 e.2).sum

theorem sumRange_congr {f : κ → υ → M} (h : ∀ k v, m[k]? = some v → p k = q k) :
    sumRange m p f = sumRange m q f := by
  unfold sumRange range
  congr 2
  refine List.filter_congr fun e he => ?_
  exact h e.1 e.2 (ExtTreeMap.mem_toList_iff_getElem?_eq_some.1 he)

/-- Taking in the key `k`, when the map has it, adds its term. -/
theorem sumRange_insert {f : κ → υ → M} {k : κ} {v : υ} (hm : m[k]? = some v) (hk : p k = false)
    (h : ∀ k' v', m[k']? = some v' → (q k' = true ↔ k' = k ∨ p k' = true)) :
    sumRange m q f = f k v + sumRange m p f := by
  have hperm : (range m q).Perm ((k, v) :: range m p) := by
    rw [List.perm_ext_iff_of_nodup (range_nodup m q)]
    · rintro ⟨k', v'⟩
      rw [List.mem_cons, mem_range, mem_range, Prod.mk.injEq]
      constructor
      · rintro ⟨hm', hq⟩
        rcases (h k' v' hm').1 hq with rfl | hp
        · exact .inl ⟨rfl, by rw [hm] at hm'; exact (Option.some.inj hm').symm⟩
        · exact .inr ⟨hm', hp⟩
      · rintro (⟨rfl, rfl⟩ | ⟨hm', hp⟩)
        · exact ⟨hm, (h _ _ hm).2 (.inl rfl)⟩
        · exact ⟨hm', (h _ _ hm').2 (.inr hp)⟩
    · refine List.nodup_cons.2 ⟨fun hmem => ?_, range_nodup m p⟩
      rw [mem_range, hk] at hmem
      exact absurd hmem.2 (by decide)
  simpa [sumRange] using (hperm.map fun e => f e.1 e.2).sum_eq

/-- Entries of a larger range that have no term do not change the sum. -/
theorem sumRange_eq_of_zero {f : κ → υ → M} (hpq : ∀ k, p k = true → q k = true)
    (h : ∀ k v, m[k]? = some v → q k = true → p k = false → f k v = 0) : sumRange m q f = sumRange m p f := by
  unfold sumRange range
  have hmem : ∀ e ∈ m.toList, q e.1 = true → p e.1 = false → f e.1 e.2 = 0 := fun e he =>
    h e.1 e.2 (ExtTreeMap.mem_toList_iff_getElem?_eq_some.1 he)
  clear h
  generalize m.toList = l at *
  induction l with
  | nil => rfl
  | cons e l ih =>
    have hl := ih fun e' he' => hmem e' (List.mem_cons_of_mem _ he')
    cases hp : p e.1 with
    | true => simp [hp, hpq _ hp, hl]
    | false =>
      cases hq : q e.1 with
      | true => simp [hp, hq, hl, hmem e List.mem_cons_self hq hp]
      | false => simp [hp, hq, hl]

theorem sumRange_empty {f : κ → υ → M} (h : ∀ k v, m[k]? = some v → p k = false) : sumRange m p f = 0 := by
  have hr : range m p = [] := List.filter_eq_nil_iff.2 fun e he => by
    simp [h e.1 e.2 (ExtTreeMap.mem_toList_iff_getElem?_eq_some.1 he)]
  simp [sumRange, hr]

/-- The sum over all entries, taken over any keys that take them in. -/
theorem sumRange_eq_sum {f : κ → υ → M} {s : Finset κ} (hs : ∀ k v, m[k]? = some v → k ∈ s) :
    sumRange m (fun _ => true) f = ∑ k ∈ s, (m[k]?).elim 0 (f k) := by
  have hmem : ∀ {k}, k ∈ m.keys.toFinset ↔ ∃ v, m[k]? = some v := by
    intro k
    rw [List.mem_toFinset, ExtTreeMap.mem_keys, ExtTreeMap.mem_iff_isSome_getElem?, Option.isSome_iff_exists]
  have hsub : m.keys.toFinset ⊆ s := by
    intro k hk
    obtain ⟨v, hv⟩ := hmem.1 hk
    exact hs k v hv
  have hnone : ∀ k ∈ s, k ∉ m.keys.toFinset → (m[k]?).elim 0 (f k) = 0 := by
    intro k _ hk
    cases hv : m[k]? with
    | none => rfl
    | some v => exact absurd (hmem.2 ⟨v, hv⟩) hk
  rw [← Finset.sum_subset hsub hnone, List.sum_toFinset _ ExtTreeMap.nodup_keys, ← ExtTreeMap.map_fst_toList_eq_keys, List.map_map]
  unfold sumRange range
  rw [List.filter_true]
  refine congrArg List.sum (List.map_congr_left fun e he => ?_)
  have he : m[e.1]? = some e.2 := ExtTreeMap.mem_toList_iff_getElem?_eq_some.1 he
  simp only [Function.comp_apply, he, Option.elim_some]

end Sum

theorem sumRange_mono {f : κ → υ → Nat} (h : ∀ k, p k = true → q k = true) :
    sumRange m p f ≤ sumRange m q f :=
  ((List.monotone_filter_right m.toList fun e he => h e.1 he).map _).sum_le_sum (by simp)

end

end Ranges

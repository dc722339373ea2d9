import EvmDexPool.Lib.Ranges

/-!
# Replaying a log over a map of states

A log entry belongs to a key and steps the state held at that key; entries of keys that hold no state
are passed over. Entries of different keys do not see each other, so a replay may be done entry by
entry or key by key, in any order of the keys. The rest is loops over a list that stop at the first failing step and keep what they
have done, and runs of a state machine over a list of steps.
-/

namespace Replay

open Std

theorem nodup_eraseDups {κ : Type} [DecidableEq κ] (ks : List κ) : ks.eraseDups.Nodup := by
  generalize hn : ks.length = n
  induction n using Nat.strong_induction_on generalizing ks with
  | _ n ih =>
    cases ks with
    | nil => simp
    | cons k ks =>
      rw [List.eraseDups_cons, List.nodup_cons]
      refine ⟨by simp [List.mem_eraseDups], ih _ ?_ _ rfl⟩
      have := List.length_filter_le (fun b => !(b == k)) ks
      rw [← hn, List.length_cons]
      omega

/-- What satisfies `p`, all of it in front of what satisfies `q`, then that. -/
theorem filter_append_filter {α : Type} {p q r : α → Bool} {xs : List α}
    (hs : xs.Pairwise fun a b => q a → ¬ p b) (h : ∀ x ∈ xs, r x ↔ p x ∨ q x) (hd : ∀ x ∈ xs, ¬ (p x ∧ q x)) :
    xs.filter p ++ xs.filter q = xs.filter r := by
  induction xs with
  | nil => rfl
  | cons x xs ih =>
    obtain ⟨hx, hs⟩ := List.pairwise_cons.1 hs
    have ih := ih hs (fun y hy => h y (List.mem_cons_of_mem _ hy)) fun y hy => hd y (List.mem_cons_of_mem _ hy)
    have hr := h x List.mem_cons_self
    have hpq := hd x List.mem_cons_self
    by_cases hp : p x
    · rw [List.filter_cons_of_pos hp, List.filter_cons_of_neg fun hq => hpq ⟨hp, hq⟩,
        List.filter_cons_of_pos (hr.2 (.inl hp)), List.cons_append, ih]
    · rw [List.filter_cons_of_neg hp]
      by_cases hq : q x
      · -- nothing after `x` satisfies `p`
        have hnil : xs.filter p = [] := List.filter_eq_nil_iff.2 fun y hy => hx y hy hq
        rw [hnil, List.nil_append] at ih ⊢
        rw [List.filter_cons_of_pos hq, List.filter_cons_of_pos (hr.2 (.inr hq)), ih]
      · rw [List.filter_cons_of_neg hq, List.filter_cons_of_neg (by simp [hr, hp, hq]), ih]

/-! ## Stepping one key -/

section Keyed
variable {κ σ α : Type} [LinearOrder κ]

/-- Apply `f` to the state at `k`, if there is one. -/
def stepAt (m : ExtTreeMap κ σ) (k : κ) (f : σ → σ) : ExtTreeMap κ σ :=
  match m[k]? with
  | some s => m.insert k (f s)
  | none => m

theorem lookup_stepAt (m : ExtTreeMap κ σ) (k t : κ) (f : σ → σ) :
    (stepAt m k f)[t]? = if t = k then m[t]?.map f else m[t]? := by
  unfold stepAt
  cases hk : m[k]? with
  | none =>
    dsimp only
    split
    · next h => subst h; simp [hk]
    · rfl
  | some s =>
    dsimp only
    rw [Ranges.lookup_insert]
    split
    · next h => subst h; simp [hk]
    · rfl

/-- Entry by entry. -/
def replay (key : α → κ) (step : α → σ → σ) (m : ExtTreeMap κ σ) (as : List α) : ExtTreeMap κ σ :=
  as.foldl (fun m a => stepAt m (key a) (step a)) m

/-- The state at a key after its own entries. -/
def own (key : α → κ) (step : α → σ → σ) (as : List α) (k : κ) (s : σ) : σ :=
  (as.filter fun a => key a = k).foldl (fun s a => step a s) s

variable (key : α → κ) (step : α → σ → σ)

theorem own_cons_self (a : α) (as : List α) (s : σ) :
    own key step (a :: as) (key a) s = own key step as (key a) (step a s) := by
  simp [own]

theorem own_cons_of_ne {a : α} {as : List α} {k : κ} (h : key a ≠ k) :
    own key step (a :: as) k = own key step as k := by
  funext s
  simp [own, h]

theorem lookup_replay (m : ExtTreeMap κ σ) (as : List α) (t : κ) :
    (replay key step m as)[t]? = m[t]?.map (own key step as t) := by
  induction as generalizing m with
  | nil => cases h : m[t]? <;> simp [replay, own, h]
  | cons a as ih =>
    change (replay key step (stepAt m (key a) (step a)) as)[t]? = _
    rw [ih, lookup_stepAt]
    by_cases h : t = key a
    · subst h
      cases hm : m[key a]? <;> simp [own_cons_self]
    · rw [if_neg h, own_cons_of_ne key step (Ne.symm h)]

/-- A replay adds no key and drops none. -/
theorem keys_replay (m : ExtTreeMap κ σ) (as : List α) : (replay key step m as).keys = m.keys := by
  have hmap : (replay key step m as).map (fun _ _ => ()) = m.map fun _ _ => () := by
    refine ExtTreeMap.ext_getElem? fun t => ?_
    rw [ExtTreeMap.getElem?_map, ExtTreeMap.getElem?_map, lookup_replay, Option.map_map]
  have hkeys := congrArg ExtTreeMap.keys hmap
  rwa [ExtTreeMap.keys_map, ExtTreeMap.keys_map] at hkeys

/-- A key none of the entries belongs to keeps its state. -/
theorem own_of_not_mem {as : List α} {k : κ} (h : k ∉ as.map key) (s : σ) : own key step as k s = s := by
  have : (as.filter fun a => key a = k) = [] := by
    rw [List.filter_eq_nil_iff]
    intro a ha hk
    exact h (List.mem_map.2 ⟨a, ha, by simpa using hk⟩)
  simp [own, this]

/-- When the entries are the keys themselves, each once. -/
theorem filter_id_of_nodup {keys : List κ} {k : κ} (hn : keys.Nodup) (hk : k ∈ keys) :
    (keys.filter fun a => id a = k) = [k] := by
  rw [show (fun a : κ => decide (id a = k)) = fun a => a == k from funext fun a => rfl]
  rw [List.filter_beq, List.count_eq_one_of_mem hn hk]
  rfl

theorem own_id_of_nodup {step : κ → σ → σ} {keys : List κ} {k : κ} (hn : keys.Nodup) (hk : k ∈ keys) (s : σ) :
    own id step keys k s = step k s := by
  unfold own
  rw [filter_id_of_nodup hn hk]
  rfl

end Keyed

/-! ## Loops that stop at the first failing step -/

section Loop
variable {α σ ε : Type}

/-- Run the steps in order; a failing step ends the loop with the state it left. -/
def loop (step : α → σ → σ × Except ε Unit) : List α → σ → σ × Except ε Unit
  | [], s => (s, .ok ())
  | a :: as, s =>
    match step a s with
    | (s', .ok ()) => loop step as s'
    | (s', .error e) => (s', .error e)

variable {step : α → σ → σ × Except ε Unit}

/-- No step of the run fails. -/
def Clean (step : α → σ → σ × Except ε Unit) : List α → σ → Prop
  | [], _ => True
  | a :: as, s => (step a s).2 = .ok () ∧ Clean step as (step a s).1

/-- A loop ends well exactly when no step fails. -/
theorem loop_ok_iff (as : List α) (s : σ) : (loop step as s).2 = .ok () ↔ Clean step as s := by
  induction as generalizing s with
  | nil => simp [loop, Clean]
  | cons a as ih =>
    rcases hs : step a s with ⟨s', e⟩
    cases e with
    | ok u => simp [loop, Clean, hs, ih]
    | error e => simp [loop, Clean, hs]

/-- A loop that ends well has done every step. -/
theorem loop_fst {as : List α} {s : σ} (h : Clean step as s) :
    (loop step as s).1 = as.foldl (fun s a => (step a s).1) s := by
  induction as generalizing s with
  | nil => rfl
  | cons a as ih =>
    obtain ⟨h1, h2⟩ := h
    rcases hs : step a s with ⟨s', e⟩
    rw [hs] at h1 h2
    subst h1
    simp [loop, hs, ih h2]

theorem loop_eq_of_clean {as : List α} {s : σ} (h : Clean step as s) :
    loop step as s = (as.foldl (fun s a => (step a s).1) s, .ok ()) :=
  Prod.ext (loop_fst h) ((loop_ok_iff as s).2 h)

end Loop

/-! ## Runs -/

section Runs
variable {α σ : Type} (step : σ → α → σ) (s : σ) (as : List α)

/-- The state after the first `k` steps. -/
def runTo (k : Nat) : σ := (as.take k).foldl step s

@[simp] theorem runTo_zero : runTo step s as 0 = s := rfl

variable {step s as}

theorem runTo_succ {k : Nat} {a : α} (h : as[k]? = some a) : runTo step s as (k + 1) = step (runTo step s as k) a := by
  unfold runTo
  rw [List.take_add_one, h, List.foldl_append]
  rfl

theorem runTo_succ_of_none {k : Nat} (h : as[k]? = none) : runTo step s as (k + 1) = runTo step s as k := by
  unfold runTo
  rw [List.take_add_one, h]
  simp

/-- What holds at first and is kept by every step taken holds all along. -/
theorem runTo_invariant {P : σ → Prop} (h0 : P s)
    (hstep : ∀ k a, as[k]? = some a → P (runTo step s as k) → P (step (runTo step s as k) a)) (k : Nat) :
    P (runTo step s as k) := by
  induction k with
  | zero => exact h0
  | succ k ih =>
    cases ha : as[k]? with
    | none =>
      rw [runTo_succ_of_none ha]
      exact ih
    | some a =>
      rw [runTo_succ ha]
      exact hstep k a ha ih

end Runs

end Replay

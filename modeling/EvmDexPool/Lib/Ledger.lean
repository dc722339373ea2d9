import Mathlib.Logic.Function.Basic
import Mathlib.Algebra.BigOperators.Group.List.Basic
import Mathlib.Tactic.Linarith

/-!
# Balances moved by entries

An account book over keys: an entry credits a key and then debits it. `Covered cap` says that no
balance leaves `[0, cap)` on the way, crediting before debiting. Under that, truncated subtraction
never truncates: a run balances (`run_add_debits`), so the order of its entries does not matter
(`run_perm`).
-/

namespace Ledger

variable {κ : Type} [DecidableEq κ]

structure Entry (κ : Type) where
  key : κ
  credit : Nat
  debit : Nat
deriving DecidableEq, Repr

def post (b : κ → Nat) (e : Entry κ) : κ → Nat := Function.update b e.key (b e.key + e.credit - e.debit)

def run (b : κ → Nat) (es : List (Entry κ)) : κ → Nat := es.foldl post b

/-- No entry takes a balance to `cap` or below zero. -/
def Covered (cap : Nat) : (κ → Nat) → List (Entry κ) → Prop
  | _, [] => True
  | b, e :: es => b e.key + e.credit < cap ∧ e.debit ≤ b e.key + e.credit ∧ Covered cap (post b e) es

def credits (k : κ) (es : List (Entry κ)) : Nat := (es.map fun e => if e.key = k then e.credit else 0).sum
def debits (k : κ) (es : List (Entry κ)) : Nat := (es.map fun e => if e.key = k then e.debit else 0).sum

theorem post_self (b : κ → Nat) (e : Entry κ) : post b e e.key = b e.key + e.credit - e.debit :=
  Function.update_self ..

theorem post_of_ne {b : κ → Nat} {e : Entry κ} {k : κ} (h : k ≠ e.key) : post b e k = b k :=
  Function.update_of_ne h ..

theorem run_append (b : κ → Nat) (es es' : List (Entry κ)) : run b (es ++ es') = run (run b es) es' :=
  List.foldl_append

theorem covered_append {cap : Nat} {es' : List (Entry κ)} : ∀ {b : κ → Nat} {es : List (Entry κ)},
    Covered cap b (es ++ es') ↔ Covered cap b es ∧ Covered cap (run b es) es'
  | b, [] => by simp [Covered, run]
  | b, e :: es => by
    rw [List.cons_append, Covered, Covered, covered_append]
    simp only [run, List.foldl_cons, and_assoc]

instance decidableCovered (cap : Nat) : (b : κ → Nat) → (es : List (Entry κ)) → Decidable (Covered cap b es)
  | _, [] => .isTrue trivial
  | b, e :: es =>
    have := decidableCovered cap (post b e) es
    inferInstanceAs (Decidable (_ ∧ _ ∧ _))

/-- **A covered run balances.** -/
theorem run_add_debits {cap : Nat} (k : κ) : ∀ {b : κ → Nat} {es : List (Entry κ)}, Covered cap b es →
    run b es k + debits k es = b k + credits k es
  | b, [], _ => by simp [run, debits, credits]
  | b, e :: es, h => by
    have ih := run_add_debits k h.2.2
    have hd := h.2.1
    change run (post b e) es k + _ = _
    simp only [debits, credits, List.map_cons, List.sum_cons] at ih ⊢
    by_cases hk : e.key = k
    · subst hk
      rw [post_self] at ih
      simp only [if_true]
      omega
    · rw [post_of_ne (Ne.symm hk)] at ih
      simp only [hk, if_false]
      omega

theorem credits_perm {es es' : List (Entry κ)} (h : es.Perm es') (k : κ) : credits k es = credits k es' :=
  (h.map _).sum_eq

theorem debits_perm {es es' : List (Entry κ)} (h : es.Perm es') (k : κ) : debits k es = debits k es' :=
  (h.map _).sum_eq

/-- **The order of covered entries does not matter.** -/
theorem run_perm {cap : Nat} {b : κ → Nat} {es es' : List (Entry κ)} (h : es.Perm es')
    (hc : Covered cap b es) (hc' : Covered cap b es') : run b es = run b es' := by
  funext k
  have h1 := run_add_debits k hc
  have h2 := run_add_debits k hc'
  have h3 := credits_perm h k
  have h4 := debits_perm h k
  omega

end Ledger

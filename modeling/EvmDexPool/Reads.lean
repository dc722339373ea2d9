import EvmDexPool.Log

/-!
# Reads that are true or fail

What a sequence of reads comes to when each of them answers what is so, or, where reads `may` fail, not at all.
-/

namespace EvmDexPool

/-- It answers `a`, or where calls may fail it may have failed. -/
def Tells {α : Type} (may : Prop) (x : Except Fault α) (a : α) : Prop := x = .ok a ∨ (may ∧ ∃ msg, x = .error (.error msg))

theorem Tells.ok {α : Type} {may : Prop} (a : α) : Tells may (.ok a) a := .inl rfl

theorem Tells.bind {α β : Type} {may : Prop} {x : Except Fault α} {a : α} {f : α → Except Fault β} {b : β} (hx : Tells may x a)
    (hf : Tells may (f a) b) : Tells may (x >>= f) b := by
  rcases hx with rfl | ⟨hmay, msg, rfl⟩
  · exact hf
  · exact .inr ⟨hmay, msg, rfl⟩

theorem Tells.mapM {α β : Type} {may : Prop} {f : α → Except Fault β} {g : α → β} {xs : List α} (h : ∀ x ∈ xs, Tells may (f x) (g x)) :
    Tells may (xs.mapM f) (xs.map g) := by
  induction xs with
  | nil => exact .ok []
  | cons x xs ih =>
    rw [List.mapM_cons, List.map_cons]
    exact (h x List.mem_cons_self).bind ((ih fun y hy => h y (List.mem_cons_of_mem _ hy)).bind (.ok _))

/-- An `Err` under the name of the call it is of. -/
def labelled {α : Type} (what : String) (x : Except Fault α) : Except Fault α :=
  match x with
  | .error (.error e) => .error (.error s!"{what}: {e}")
  | x => x

theorem Tells.labelled {α : Type} {may : Prop} {x : Except Fault α} {a : α} (h : Tells may x a) (what : String) :
    Tells may (EvmDexPool.labelled what x) a := by
  rcases h with rfl | ⟨hmay, msg, rfl⟩
  · exact .ok a
  · exact .inr ⟨hmay, _, rfl⟩

/-- An answer with the property, or where calls may fail it may have failed. -/
def Yields {α : Type} (may : Prop) (x : Except Fault α) (P : α → Prop) : Prop :=
  (∃ a, P a ∧ x = .ok a) ∨ (may ∧ ∃ msg, x = .error (.error msg))

theorem Yields.bind {α β : Type} {may : Prop} {x : Except Fault α} {P : α → Prop} {f : α → Except Fault β} {Q : β → Prop}
    (hx : Yields may x P) (hf : ∀ a, P a → Yields may (f a) Q) : Yields may (x >>= f) Q := by
  rcases hx with ⟨a, ha, rfl⟩ | ⟨hmay, msg, rfl⟩
  · exact hf a ha
  · exact .inr ⟨hmay, msg, rfl⟩

theorem Yields.imp {α : Type} {may : Prop} {x : Except Fault α} {P Q : α → Prop} (hx : Yields may x P) (h : ∀ a, P a → Q a) :
    Yields may x Q := by
  rcases hx with ⟨a, ha, rfl⟩ | hx
  · exact .inl ⟨a, h a ha, rfl⟩
  · exact .inr hx

theorem Yields.labelled {α : Type} {may : Prop} {x : Except Fault α} {P : α → Prop} (h : Yields may x P) (what : String) :
    Yields may (EvmDexPool.labelled what x) P := by
  rcases h with ⟨a, ha, rfl⟩ | ⟨hmay, msg, rfl⟩
  · exact .inl ⟨a, ha, rfl⟩
  · exact .inr ⟨hmay, _, rfl⟩

/-- A call that is not answered fails. -/
theorem fails_of_not_isOk {α : Type} {x : Except Fault α} (h : ¬x.isOk) : ∃ e, x = .error e := by
  cases x with
  | ok a => exact absurd rfl h
  | error e => exact ⟨e, rfl⟩

theorem Tells.yields {α : Type} {may : Prop} {x : Except Fault α} {a : α} (h : Tells may x a) : Yields may x (· = a) := by
  rcases h with h | h
  · exact .inl ⟨a, rfl, h⟩
  · exact .inr h

end EvmDexPool

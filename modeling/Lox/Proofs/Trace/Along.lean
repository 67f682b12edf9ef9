import Mathlib.Data.List.Pairwise
import Mathlib.Order.Defs.Unbundled

/-!
# From one to the next

What happens one after the other is a list, and a relation that leads from each to the next one, from a
start and on to an end, leads *along* the list (`Along`). If the relation is transitive, lists are put
together like this, and each is related to all behind it.
-/

namespace Lox

variable {σ : Type} {R : σ → σ → Prop}

/-- The relation leads from the first along the list to the last. -/
def Along (R : σ → σ → Prop) (a : σ) : List σ → σ → Prop
  | [], b => R a b
  | x :: xs, b => R a x ∧ Along R x xs b

namespace Along

variable [IsTrans σ R] {a b c : σ} {xs ys : List σ}

protected theorem trans (h : Along R a xs b) : R a b := by
  induction xs generalizing a with
  | nil => exact h
  | cons x xs ih => exact IsTrans.trans _ _ _ h.1 (ih h.2)

theorem behind (hab : R a b) (h : Along R b xs c) : Along R a xs c := by
  cases xs with
  | nil => exact IsTrans.trans _ _ _ hab h
  | cons x xs => exact ⟨IsTrans.trans _ _ _ hab h.1, h.2⟩

theorem append (h : Along R a xs b) (h' : Along R b ys c) : Along R a (xs ++ ys) c := by
  induction xs generalizing a with
  | nil => exact h'.behind h
  | cons x xs ih => exact ⟨h.1, ih h.2⟩

theorem ahead (h : Along R a xs b) (hbc : R b c) : Along R a xs c := by
  have whole := h.append (show Along R b [] c from hbc)
  rwa [List.append_nil] at whole

/-- Each is related to all that come behind it. -/
theorem pairwise (h : Along R a xs b) : (a :: xs ++ [b]).Pairwise R := by
  induction xs generalizing a with
  | nil => exact List.pairwise_pair.mpr h
  | cons x xs ih =>
    have rest := ih h.2
    refine List.pairwise_cons.mpr ⟨fun y hy => ?_, rest⟩
    rcases List.mem_cons.mp hy with rfl | hy
    · exact h.1
    · exact IsTrans.trans _ _ _ h.1 ((List.pairwise_cons.mp rest).1 y hy)

end Along

end Lox

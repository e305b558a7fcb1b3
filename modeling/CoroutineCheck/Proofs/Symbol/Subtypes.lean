import CoroutineCheck.Symbol
import Mathlib.Data.List.Basic
import Mathlib.Logic.Relation
/-!
# Subtypes

A symbol carries the types above it as a tree. The search for a name goes through the whole tree, so it
answers whether some type at or above the symbol has the name.
-/
namespace CoroutineCheck.Symbol

def Extends : (s above : Symbol) → Prop :=
  Relation.ReflTransGen fun s u => u ∈ s.supertypes

theorem exists_extends_iff {P : Symbol → Prop} {s : Symbol} :
    (∃ u, s.Extends u ∧ P u) ↔ P s ∨ ∃ c ∈ s.supertypes, ∃ u, c.Extends u ∧ P u := by
  constructor
  · rintro ⟨u, hu, hp⟩
    rcases Relation.ReflTransGen.cases_head hu with rfl | ⟨c, hc, hu⟩
    · exact .inl hp
    · exact .inr ⟨c, hc, u, hu, hp⟩
  · rintro (hp | ⟨c, hc, u, hu, hp⟩)
    · exact ⟨s, .refl, hp⟩
    · exact ⟨u, .head hc hu, hp⟩

mutual

theorem isSubtypeOf_iff (name : String) :
    (s : Symbol) → (isSubtypeOf name s = true ↔ ∃ u, s.Extends u ∧ u.qualifiedName = name)
  | mk q k p above => by
    rw [isSubtypeOf, Bool.or_eq_true, beq_iff_eq, anySubtypeOf_iff name above,
      exists_extends_iff]
    exact .rfl

private theorem anySubtypeOf_iff (name : String) :
    (ss : List Symbol) →
      (anySubtypeOf name ss = true ↔ ∃ s ∈ ss, ∃ u, s.Extends u ∧ u.qualifiedName = name)
  | [] => by simp [anySubtypeOf]
  | s :: rest => by
    rw [anySubtypeOf, Bool.or_eq_true, isSubtypeOf_iff name s, anySubtypeOf_iff name rest,
      List.exists_mem_cons_iff]

end

end CoroutineCheck.Symbol

import Mathlib.Data.List.Nodup
import Mathlib.Data.List.Perm.Basic
/-!
# Looking through a list in another order

A search takes the first element that passes a test. What is read off that element does not depend on the
order of the list as long as all elements that pass agree in it. Keys that are all different are the case
where at most one element passes.
-/
namespace CoroutineCheck

variable {α β κ : Type}

theorem find?_map_of_perm {p : α → Bool} {g : α → β} {xs ys : List α}
    (hperm : xs.Perm ys) (hsame : ∀ a ∈ xs, ∀ b ∈ xs, p a → p b → g a = g b) :
    (xs.find? p).map g = (ys.find? p).map g := by
  cases hx : xs.find? p with
  | none =>
    have hy : ys.find? p = none := by
      rw [List.find?_eq_none] at hx ⊢
      exact fun b hb => hx b (hperm.mem_iff.mpr hb)
    rw [hy]
  | some a =>
    have ha := List.mem_of_find?_eq_some hx
    have hpa := List.find?_some hx
    obtain ⟨b, hy⟩ : ∃ b, ys.find? p = some b :=
      Option.isSome_iff_exists.mp (List.find?_isSome.mpr ⟨a, hperm.mem_iff.mp ha, hpa⟩)
    have hb := hperm.mem_iff.mpr (List.mem_of_find?_eq_some hy)
    rw [hy, Option.map_some, Option.map_some, hsame a ha b hb hpa (List.find?_some hy)]

variable [BEq κ] [LawfulBEq κ]

theorem lookup_eq_find? (key : κ) (xs : List (κ × β)) :
    xs.lookup key = (xs.find? (·.1 == key)).map (·.2) := by
  induction xs with
  | nil => rfl
  | cons x xs ih =>
    obtain ⟨k, value⟩ := x
    by_cases h : key = k
    · subst h
      simp
    · have hne : (key == k) = false := beq_eq_false_iff_ne.mpr h
      have hne' : (k == key) = false := beq_eq_false_iff_ne.mpr (Ne.symm h)
      rw [List.lookup_cons, hne, ih, List.find?_cons, hne']

theorem mem_of_lookup_eq_some {key : κ} {xs : List (κ × β)} {value : β}
    (h : xs.lookup key = some value) : (key, value) ∈ xs := by
  obtain ⟨front, back, rfl, _⟩ := List.lookup_eq_some_iff.mp h
  simp

theorem lookup_eq_of_perm {xs ys : List (κ × β)} (hkeys : (xs.map (·.1)).Nodup) (hperm : xs.Perm ys)
    (key : κ) : xs.lookup key = ys.lookup key := by
  rw [lookup_eq_find?, lookup_eq_find?]
  apply find?_map_of_perm hperm
  intro x hx y hy hkey hkey'
  have hsame : x.1 = y.1 := (beq_iff_eq.mp hkey).trans (beq_iff_eq.mp hkey').symm
  rw [List.inj_on_of_nodup_map hkeys hx hy hsame]

end CoroutineCheck

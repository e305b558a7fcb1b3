import Mathlib.Data.List.Basic
/-!
# Lists of computations that can fail

A computation over a list fails at the first item that fails, and else gives one result for each item.
Whether it fails does not depend on the errors, so that two computations with different errors are compared
through their results alone.
-/
namespace CoroutineCheck

variable {α β ε : Type} {l : List α}

theorem toOption_eq_some_iff {x : Except ε α} {y : α} : x.toOption = some y ↔ x = .ok y := by
  cases x <;> simp [Except.toOption]

theorem toOption_bind (x : Except ε α) (f : α → Except ε β) :
    (x >>= f).toOption = x.toOption.bind fun a => (f a).toOption := by
  cases x <;> rfl

theorem toOption_mapError {ε' : Type} (x : Except ε α) (f : ε → ε') :
    (x.mapError f).toOption = x.toOption := by
  cases x <;> rfl

theorem mapM_eq_ok {f : α → Except ε β} {g : α → β} (h : ∀ x ∈ l, f x = .ok (g x)) :
    l.mapM f = .ok (l.map g) := by
  induction l with
  | nil => rfl
  | cons x l ih =>
    rw [List.mapM_cons, h x List.mem_cons_self, ih fun y hy => h y (List.mem_cons_of_mem x hy)]
    rfl

theorem mapM_eq_error {f : α → Except ε β} {g : α → β} {x : α} {e : ε} (rest : List α)
    (h : ∀ y ∈ l, f y = .ok (g y)) (hx : f x = .error e) : (l ++ x :: rest).mapM f = .error e := by
  induction l with
  | nil =>
    rw [List.nil_append, List.mapM_cons, hx]
    rfl
  | cons y l ih =>
    rw [List.cons_append, List.mapM_cons, h y List.mem_cons_self,
      ih fun z hz => h z (List.mem_cons_of_mem y hz)]
    rfl

theorem toOption_mapM (l : List α) (f : α → Except ε β) :
    (l.mapM f).toOption = l.mapM fun x => (f x).toOption := by
  induction l with
  | nil => rfl
  | cons x l ih =>
    rw [List.mapM_cons, List.mapM_cons, toOption_bind]
    congr 1
    funext y
    rw [toOption_bind, ih]
    rfl

theorem mapM_congr {f g : α → Option β} (h : ∀ x ∈ l, f x = g x) :
    l.mapM f = l.mapM g := by
  induction l with
  | nil => rfl
  | cons x l ih =>
    obtain ⟨hx, hl⟩ := List.forall_mem_cons.mp h
    rw [List.mapM_cons, List.mapM_cons, hx, ih hl]

theorem mem_of_mapM_eq_some {f : α → Option β} {ys : List β} (h : l.mapM f = some ys)
    {y : β} (hy : y ∈ ys) : ∃ x ∈ l, f x = some y := by
  induction l generalizing ys with
  | nil =>
    cases h
    cases hy
  | cons x l ih =>
    rw [List.mapM_cons] at h
    obtain ⟨z, hz, h⟩ := Option.bind_eq_some_iff.mp h
    obtain ⟨zs, hzs, h⟩ := Option.bind_eq_some_iff.mp h
    cases h
    rcases List.mem_cons.mp hy with rfl | hy
    · exact ⟨x, List.mem_cons_self, hz⟩
    · obtain ⟨w, hw, hwy⟩ := ih hzs hy
      exact ⟨w, List.mem_cons_of_mem _ hw, hwy⟩

end CoroutineCheck

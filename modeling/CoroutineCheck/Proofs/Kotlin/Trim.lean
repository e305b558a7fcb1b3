import CoroutineCheck.Proofs.Kotlin.Placement
/-!
# Outlines without empty items

Items that come to nothing can be dropped from the lists in an outline, on every level. What is left is
placed in the same way: the same nodes at the same positions, and the same declarations.
-/
namespace CoroutineCheck.Kotlin.Outline

def isNothing : Outline → Bool
  | group [] => true
  | _ => false

mutual

def trim : Outline → Outline
  | word w => word w
  | navigation span receiver selector => navigation span receiver.trim selector
  | call span receiver callee args trailing =>
    call span (trimOption receiver) callee (trimAll args) (trimOption trailing)
  | argument span label value => argument span label value.trim
  | binary span op lhs rhs => binary span op lhs.trim rhs.trim
  | parenthesized span inner => parenthesized span inner.trim
  | lambda span body => lambda span (trimAll body)
  | classDecl span info body => classDecl span info (trimAll body)
  | wrapper kind span inner => wrapper kind span inner.trim
  | group items => group (trimAll items)
  | function span decl body => function span decl (trimAll body)
  | binding decl before initializer after =>
    binding decl (trimAll before) (trimOption initializer) (trimAll after)
  | package info => package info
  | imported info => imported info

def trimAll : List Outline → List Outline
  | [] => []
  | o :: rest => if o.trim.isNothing then trimAll rest else o.trim :: trimAll rest

def trimOption : Option Outline → Option Outline
  | none => none
  | some o => some o.trim

end

@[simp] theorem trimOption_eq (o : Option Outline) : trimOption o = o.map trim := by
  cases o <;> rfl

@[simp] private theorem trimAll_eq (os : List Outline) :
    trimAll os = (os.map trim).filter fun o => !o.isNothing := by
  induction os with
  | nil => rfl
  | cons o os ih =>
    rw [trimAll, ih, List.map_cons, List.filter_cons]
    cases o.trim.isNothing with
    | true => rfl
    | false => rfl

private theorem eq_nothing_of_isNothing {o : Outline} (h : o.isNothing = true) : o = nothing := by
  unfold isNothing at h
  split at h
  · rfl
  · cases h

/-! ## Roots -/

private theorem roots_trimAll {os : List Outline} (h : ∀ o ∈ os, o.trim.roots = o.roots) :
    ((os.map trim).filter fun o => !o.isNothing).flatMap roots = os.flatMap roots := by
  induction os with
  | nil => rfl
  | cons o os ih =>
    obtain ⟨ho, hos⟩ := List.forall_mem_cons.mp h
    rw [List.map_cons, List.filter_cons, List.flatMap_cons, ← ho, ← ih hos]
    cases hn : o.trim.isNothing with
    | true =>
      rw [eq_nothing_of_isNothing hn]
      rfl
    | false => rfl

private theorem roots_trim (o : Outline) : o.trim.roots = o.roots := by
  induction o using parts_induction with
  | h o ih =>
    cases o with
    | group items =>
      simp only [trim, roots, rootsAll_eq, trimAll_eq]
      exact roots_trimAll ih
    | function _ _ body =>
      simp only [trim, roots, rootsAll_eq, trimAll_eq]
      exact roots_trimAll ih
    | binding _ before initializer after =>
      have hbefore := roots_trimAll fun c (hc : c ∈ before) => ih c (by simp [parts, hc])
      have hafter := roots_trimAll fun c (hc : c ∈ after) => ih c (by simp [parts, hc])
      have hinit : (initializer.map trim).toList.flatMap roots = initializer.toList.flatMap roots := by
        cases initializer with
        | none => rfl
        | some c => simpa using ih c (by simp [parts])
      simp only [trim, roots, rootsAll_eq, rootsOption_eq, trimAll_eq, trimOption_eq, hbefore, hinit,
        hafter]
    | _ => rfl

theorem trim_single (o : Outline) (kind : String) (span : Span) :
    (o.single kind span).trim = o.trim.single kind span := by
  unfold single
  rw [roots_trim]
  split
  · rfl
  · rfl

/-! ## Placement -/

private theorem placeAll_trimAll {os : List Outline}
    (h : ∀ o ∈ os, ∀ scope d, o.trim.place scope d = o.place scope d) (scope : Span) (d : Draft) :
    placeAll scope (trimAll os) d = placeAll scope os d := by
  induction os generalizing d with
  | nil => rfl
  | cons o os ih =>
    obtain ⟨ho, hos⟩ := List.forall_mem_cons.mp h
    rw [trimAll]
    split
    case isTrue hn =>
      have hnone : o.place scope d = ([], d) := by
        rw [← ho, eq_nothing_of_isNothing hn]
        rfl
      simp only [placeAll, hnone, ih hos, List.nil_append]
    case isFalse => simp only [placeAll, ho, ih hos]

private theorem placeOption_trimOption {o : Option Outline}
    (h : ∀ c ∈ o, ∀ scope d, c.trim.place scope d = c.place scope d) (scope : Span) (d : Draft) :
    placeOption scope (trimOption o) d = placeOption scope o d := by
  cases o with
  | none => rfl
  | some c => exact h c rfl scope d

/-- Items that come to nothing make no difference to what is placed or declared. -/
theorem place_trim (o : Outline) (scope : Span) (d : Draft) :
    o.trim.place scope d = o.place scope d := by
  induction o using parts_induction generalizing scope d with
  | h o ih =>
    cases o with
    | word | package | imported => rfl
    | navigation _ receiver _ => simp only [trim, place, ih receiver (by simp [parts])]
    | argument _ _ value => simp only [trim, place, ih value (by simp [parts])]
    | parenthesized _ inner => simp only [trim, place, ih inner (by simp [parts])]
    | wrapper _ _ inner => simp only [trim, place, ih inner (by simp [parts])]
    | binary _ _ lhs rhs =>
      simp only [trim, place, ih lhs (by simp [parts]), ih rhs (by simp [parts])]
    | lambda _ body | classDecl _ _ body | group body =>
      have hbody := placeAll_trimAll fun c (hc : c ∈ body) => ih c hc
      simp only [trim, place, hbody]
    | function _ decl body =>
      have hbody := placeAll_trimAll fun c (hc : c ∈ body) => ih c hc
      cases decl <;> simp only [trim, place, hbody]
    | call _ receiver _ args trailing =>
      have hreceiver := placeOption_trimOption fun c (hc : c ∈ receiver) =>
        ih c (by simp [parts, Option.mem_def.mp hc])
      have hargs := placeAll_trimAll fun c (hc : c ∈ args) => ih c (by simp [parts, hc])
      have htrailing := placeOption_trimOption fun c (hc : c ∈ trailing) =>
        ih c (by simp [parts, Option.mem_def.mp hc])
      simp only [trim, place, hreceiver, hargs, htrailing]
    | binding decl before initializer after =>
      have hbefore := placeAll_trimAll fun c (hc : c ∈ before) => ih c (by simp [parts, hc])
      have hinit := placeOption_trimOption fun c (hc : c ∈ initializer) =>
        ih c (by simp [parts, Option.mem_def.mp hc])
      have hafter := placeAll_trimAll fun c (hc : c ∈ after) => ih c (by simp [parts, hc])
      cases decl <;> simp only [trim, place, hbefore, hinit, hafter]

theorem placeAll_trim (os : List Outline) (scope : Span) (d : Draft) :
    placeAll scope (trimAll os) d = placeAll scope os d :=
  placeAll_trimAll (fun o _ => place_trim o) scope d

end CoroutineCheck.Kotlin.Outline

import CoroutineCheck.Proofs.Kotlin.Scopes
/-!
# The stack of scopes

Items can also be placed with a stack of the scopes that are open: a function, class or lambda puts its
span on it and takes it off behind its body, and a variable is recorded in the scope on top. This leaves
every stack as it was, whatever the item, and is no different from placing the item in the scope on top.
-/
namespace CoroutineCheck.Kotlin

open Reading Outline

/-- A draft with the scopes that are open, the innermost first. -/
structure Stacked where
  draft : Draft
  scopes : List Span

namespace Stacked

/-- The scope on top, and the whole file if none is open. -/
def scope (file : Span) (s : Stacked) : Span := s.scopes.head?.getD file

def push (span : Span) (s : Stacked) : Stacked := { s with scopes := span :: s.scopes }

def pop (s : Stacked) : Stacked := { s with scopes := s.scopes.tail }

def onDraft {α : Type} (f : Draft → α × Draft) (s : Stacked) : α × Stacked :=
  ((f s.draft).1, { s with draft := (f s.draft).2 })

def add (shape : Shape) (span : Span) (children : List Nat) : Stacked → Nat × Stacked :=
  onDraft (·.add shape span children)

def addWord (w : Word) : Stacked → Nat × Stacked :=
  onDraft (·.addWord w)

def declare (f : Declarations → Declarations) (s : Stacked) : Stacked :=
  { s with draft := s.draft.declare f }

end Stacked

namespace Outline

mutual

def lower (file : Span) : Outline → Stacked → List Nat × Stacked
  | word w, s =>
    let (id, s) := s.addWord w
    ([id], s)
  | navigation span receiver selector, s =>
    let (r, s) := lower file receiver s
    let (w, s) := s.addWord selector
    let (id, s) := s.add (.navigation (r.headD 0) w) span []
    ([id], s)
  | call span receiver callee args trailing, s =>
    let (r, s) := lowerOption file receiver s
    let (c, s) := s.addWord callee
    let (as, s) := lowerAll file args s
    let (l, s) := lowerOption file trailing s
    let (id, s) := s.add (.call r.head? c as l.head?) span []
    ([id], s)
  | argument span label value, s =>
    let (v, s) := lower file value s
    let (id, s) := s.add (.argument label (v.headD 0)) span []
    ([id], s)
  | binary span op lhs rhs, s =>
    let (l, s) := lower file lhs s
    let (r, s) := lower file rhs s
    let (id, s) := s.add (.binary op (l.headD 0) (r.headD 0)) span []
    ([id], s)
  | parenthesized span inner, s =>
    let (i, s) := lower file inner s
    let (id, s) := s.add (.parenthesized (i.headD 0)) span []
    ([id], s)
  | lambda span body, s =>
    let (ids, s) := lowerAll file body (s.push span)
    let (id, s) := s.pop.add .lambda span ids
    ([id], s)
  | classDecl span info body, s =>
    let (ids, s) := lowerAll file body (s.push span)
    let (id, s) := s.pop.add (.classDecl info.name) span ids
    ([id], s.declare (·.addClass id info))
  | wrapper kind span inner, s =>
    let (ids, s) := lower file inner s
    let (id, s) := s.add (.other kind) span ids
    ([id], s)
  | group items, s => lowerAll file items s
  | function span decl body, s =>
    let s := decl.elim s fun f => s.declare (·.addFunction f.name f.type)
    let (ids, s) := lowerAll file body (s.push span)
    (ids, s.pop)
  | binding decl before initializer after, s =>
    let (bs, s) := lowerAll file before s
    let (is, s) := lowerOption file initializer s
    let (as, s) := lowerAll file after s
    let s := decl.elim s fun v => s.declare (·.addVariable ⟨v.name, v.type, is.head?, s.scope file⟩)
    (bs ++ is ++ as, s)
  | package info, s => ([], s.declare ({ · with package := info }))
  | imported info, s => ([], s.declare (·.addImport info))

def lowerAll (file : Span) : List Outline → Stacked → List Nat × Stacked
  | [], s => ([], s)
  | o :: rest, s =>
    let (ids, s) := lower file o s
    let (more, s) := lowerAll file rest s
    (ids ++ more, s)

def lowerOption (file : Span) : Option Outline → Stacked → List Nat × Stacked
  | none, s => ([], s)
  | some o, s => lower file o s

end

/-- Placing an item with a stack is placing it in the scope on top, and the stack stays as it is. -/
def Balanced (file : Span) (o : Outline) : Prop :=
  ∀ s : Stacked, o.lower file s = s.onDraft (o.place (s.scope file))

variable {file : Span}

private theorem lowerAll_eq {os : List Outline} (h : ∀ o ∈ os, o.Balanced file) (s : Stacked) :
    lowerAll file os s = s.onDraft (placeAll (s.scope file) os) := by
  induction os generalizing s with
  | nil => rfl
  | cons o os ih =>
    obtain ⟨ho, hos⟩ := List.forall_mem_cons.mp h
    rw [lowerAll, ho s]
    simp only
    rw [ih hos]
    rfl

private theorem lowerOption_eq {o : Option Outline} (h : ∀ c ∈ o, c.Balanced file) (s : Stacked) :
    lowerOption file o s = s.onDraft (placeOption (s.scope file) o) := by
  cases o with
  | none => rfl
  | some c => exact h c rfl s

private theorem lowerAll_push {os : List Outline} (h : ∀ o ∈ os, o.Balanced file) (span : Span)
    (s : Stacked) :
    lowerAll file os (s.push span) = (s.push span).onDraft (placeAll span os) :=
  lowerAll_eq h (s.push span)

private theorem balanced (file : Span) (o : Outline) : o.Balanced file := by
  induction o using parts_induction with
  | h o ih =>
    intro s
    cases o with
    | word | package | imported => rfl
    | navigation span receiver selector =>
      rw [lower, ih receiver (by simp [parts])]
      rfl
    | argument _ _ inner | parenthesized _ inner | wrapper _ _ inner =>
      rw [lower, ih inner (by simp [parts])]
      rfl
    | call span receiver callee args trailing =>
      rw [lower, lowerOption_eq fun c hc => ih c (by simp_all [parts])]
      simp only
      rw [lowerAll_eq fun c hc => ih c (by simp_all [parts]),
        lowerOption_eq fun c hc => ih c (by simp_all [parts])]
      rfl
    | binary span op lhs rhs =>
      rw [lower, ih lhs (by simp [parts])]
      simp only
      rw [ih rhs (by simp [parts])]
      rfl
    | lambda span body | classDecl span info body =>
      have hbody : ∀ c ∈ body, c.Balanced file := ih
      rw [lower, lowerAll_push hbody]
      rfl
    | group items => exact lowerAll_eq ih s
    | function span decl body =>
      have hbody : ∀ c ∈ body, c.Balanced file := ih
      rw [lower, lowerAll_push hbody]
      cases decl <;> rfl
    | binding decl before initializer after =>
      rw [lower, lowerAll_eq fun c hc => ih c (by simp_all [parts])]
      simp only
      rw [lowerOption_eq fun c hc => ih c (by simp_all [parts]),
        lowerAll_eq fun c hc => ih c (by simp_all [parts])]
      cases decl <;> rfl

end Outline

/-- With a stack of scopes a file is laid out as it is without, and every item leaves the stack as it found
it. The variables are those that the rows in view declare, in that order, each in the innermost scope above
its row. -/
theorem variables_recorded_in_innermost_scope (source : String) (root : Row) :
    let file : Span := ⟨0, Text.byteLength source.toList⟩
    let top := root.read source.toList
    let rows := (namedOf top.children).flatMap (declaring source.toList)
    let run := lowerAll file (outlineOf source.toList root) ⟨Draft.empty, [file]⟩
    layout source root = ⟨run.2.draft.arena.finishWithRoot source root.kind, run.2.draft.declarations⟩ ∧
      (∀ (o : Outline) (s : Stacked), (o.lower file s).2.scopes = s.scopes) ∧
      (∀ r, (∃ chain, (chain, r) ∈ rows) ↔
        top.InView source.toList r ∧ (r.declared? source.toList).isSome = true) ∧
      List.Forall₂ (fun v p => ∃ c ∈ namedOf top.children, c.Binds source.toList file v.entry p)
        (layout source root).declarations.bindings rows := by
  intro file top rows run
  have hrun : run = _ := lowerAll_eq (fun o _ => o.balanced file) _
  refine ⟨?_, ?_, fun r => mem_declaring_iff, layout_bindings_bind source root⟩
  · rw [hrun]
    rfl
  · intro o s
    rw [o.balanced file s]
    rfl

end CoroutineCheck.Kotlin

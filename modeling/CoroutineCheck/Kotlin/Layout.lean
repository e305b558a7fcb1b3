import CoroutineCheck.Kotlin.Reading
import CoroutineCheck.Tree.Builder
/-!
# Laying out a file

An outline is placed in an arena, parts before the node they belong to, and the declarations met on
the way are recorded. The scope is the span of the innermost function, class or lambda.
-/
namespace CoroutineCheck.Kotlin

structure Draft where
  arena : Arena
  declarations : Declarations

namespace Draft

def empty : Draft := ⟨Arena.empty, Declarations.empty⟩

/-- Add a node; its position comes first. -/
def add (d : Draft) (shape : Shape) (span : Span) (children : List Nat) : Nat × Draft :=
  (d.arena.next, { d with arena := d.arena.add shape span children })

def addWord (d : Draft) (w : Word) : Nat × Draft :=
  d.add (.identifier w.text) w.span []

def declare (d : Draft) (f : Declarations → Declarations) : Draft :=
  { d with declarations := f d.declarations }

end Draft

namespace Outline

mutual

/-- Place an item in a scope: the positions of its nodes, and the draft after it. -/
def place (scope : Span) : Outline → Draft → List Nat × Draft
  | word w, d =>
    let (id, d) := d.addWord w
    ([id], d)
  | navigation span receiver selector, d =>
    let (r, d) := place scope receiver d
    let (s, d) := d.addWord selector
    let (id, d) := d.add (.navigation (r.headD 0) s) span []
    ([id], d)
  | call span receiver callee args trailing, d =>
    let (r, d) := placeOption scope receiver d
    let (c, d) := d.addWord callee
    let (as, d) := placeAll scope args d
    let (l, d) := placeOption scope trailing d
    let (id, d) := d.add (.call r.head? c as l.head?) span []
    ([id], d)
  | argument span label value, d =>
    let (v, d) := place scope value d
    let (id, d) := d.add (.argument label (v.headD 0)) span []
    ([id], d)
  | binary span op lhs rhs, d =>
    let (l, d) := place scope lhs d
    let (r, d) := place scope rhs d
    let (id, d) := d.add (.binary op (l.headD 0) (r.headD 0)) span []
    ([id], d)
  | parenthesized span inner, d =>
    let (i, d) := place scope inner d
    let (id, d) := d.add (.parenthesized (i.headD 0)) span []
    ([id], d)
  | lambda span body, d =>
    let (ids, d) := placeAll span body d
    let (id, d) := d.add .lambda span ids
    ([id], d)
  | classDecl span info body, d =>
    let (ids, d) := placeAll span body d
    let (id, d) := d.add (.classDecl info.name) span ids
    ([id], d.declare (·.addClass id info))
  | wrapper kind span inner, d =>
    let (ids, d) := place scope inner d
    let (id, d) := d.add (.other kind) span ids
    ([id], d)
  | group items, d => placeAll scope items d
  | function span decl body, d =>
    let d := match decl with
      | some f => d.declare (·.addFunction f.name f.type)
      | none => d
    placeAll span body d
  | binding decl before initializer after, d =>
    let (bs, d) := placeAll scope before d
    let (is, d) := placeOption scope initializer d
    let (as, d) := placeAll scope after d
    let d := match decl with
      | some v => d.declare (·.addVariable ⟨v.name, v.type, is.head?, scope⟩)
      | none => d
    (bs ++ is ++ as, d)
  | package info, d => ([], d.declare ({ · with package := info }))
  | imported info, d => ([], d.declare (·.addImport info))

def placeAll (scope : Span) : List Outline → Draft → List Nat × Draft
  | [], d => ([], d)
  | o :: rest, d =>
    let (ids, d) := place scope o d
    let (more, d) := placeAll scope rest d
    (ids ++ more, d)

def placeOption (scope : Span) : Option Outline → Draft → List Nat × Draft
  | none, d => ([], d)
  | some o, d => place scope o d

end

end Outline

structure Layout where
  tree : Tree
  declarations : Declarations

def layout (source : String) (root : Row) : Layout :=
  let chars := source.toList
  let (_, d) := Outline.placeAll ⟨0, Text.byteLength chars⟩ (outlineOf chars root) Draft.empty
  ⟨d.arena.finishWithRoot source root.kind, d.declarations⟩

end CoroutineCheck.Kotlin

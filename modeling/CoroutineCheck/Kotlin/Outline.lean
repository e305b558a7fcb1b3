import CoroutineCheck.Kotlin.Declarations
/-!
# Outlines

An outline is what a piece of a file means to the rules: expressions, declarations, imports. Each
item becomes some nodes of the tree, in order; a wrapper gives a node to an expression that has
none of its own, and a group is no more than its items.
-/
namespace CoroutineCheck.Kotlin

structure Word where
  text : String
  span : Span
deriving DecidableEq, Repr

structure Typed where
  name : String
  type : Option String
deriving DecidableEq, Repr

inductive Outline where
  | word (w : Word)
  | navigation (span : Span) (receiver : Outline) (selector : Word)
  | call (span : Span) (receiver : Option Outline) (callee : Word) (args : List Outline)
      (trailing : Option Outline)
  | argument (span : Span) (label : Option String) (value : Outline)
  | binary (span : Span) (op : String) (lhs rhs : Outline)
  | parenthesized (span : Span) (inner : Outline)
  | lambda (span : Span) (body : List Outline)
  | classDecl (span : Span) (info : ClassInfo) (body : List Outline)
  | wrapper (kind : String) (span : Span) (inner : Outline)
  | group (items : List Outline)
  | function (span : Span) (decl : Option Typed) (body : List Outline)
  | binding (decl : Option Typed) (before : List Outline) (initializer : Option Outline)
      (after : List Outline)
  | package (info : Option Package)
  | imported (info : Import)
deriving Repr, Inhabited

namespace Outline

def nothing : Outline := group []

mutual

/-- The spans of the nodes that an item becomes. -/
def roots : Outline → List Span
  | word w => [w.span]
  | navigation s _ _ => [s]
  | call s _ _ _ _ => [s]
  | argument s _ _ => [s]
  | binary s _ _ _ => [s]
  | parenthesized s _ => [s]
  | lambda s _ => [s]
  | classDecl s _ _ => [s]
  | wrapper _ s _ => [s]
  | group items => rootsAll items
  | function _ _ body => rootsAll body
  | binding _ before initializer after =>
    rootsAll before ++ rootsOption initializer ++ rootsAll after
  | package _ => []
  | imported _ => []

def rootsAll : List Outline → List Span
  | [] => []
  | o :: rest => roots o ++ rootsAll rest

def rootsOption : Option Outline → List Span
  | none => []
  | some o => roots o

end

/-- An item as exactly one node over a span: itself if it is that already, else wrapped. -/
def single (kind : String) (span : Span) (o : Outline) : Outline :=
  if o.roots == [span] then o else wrapper kind span o

end Outline
end CoroutineCheck.Kotlin

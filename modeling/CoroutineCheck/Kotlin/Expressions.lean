import CoroutineCheck.Kotlin.Names
import CoroutineCheck.SourceFile
/-!
# Resolving expressions

Identifiers, calls and qualified references are resolved through the declarations of their file. The
type of an expression is that of the variable it names, of the value that its declaration has, or a
coroutine context for a sum.
-/
namespace CoroutineCheck.Kotlin

def dottedPath? (t : Tree) (id : Nat) : Option String :=
  match _ : t.shape id with
  | .identifier name => some name
  | .navigation receiver selector =>
    match dottedPath? t receiver, t.identifier? selector with
    | some front, some last => some (front ++ "." ++ last)
    | _, _ => none
  | _ => none
termination_by id
decreasing_by exact Tree.parts_lt (t := t) (by simp [*, Shape.parts])

namespace Declarations

/-- The declaration that a call refers to: a qualified one if the receiver is a dotted path, else
the callee's name. -/
def call? (d : Declarations) (level : Nat) (t : Tree) (id : Nat) : Option Symbol :=
  match t.shape id with
  | .call receiver callee _ _ => do
    let name ← t.identifier? callee
    let path := receiver.bind (dottedPath? t)
    match path.bind fun p => d.qualifiedOn? level (p ++ "." ++ name) .called with
    | some s => return s
    | none => d.simpleOn? level name .called
  | _ => none

/-- The declaration that a navigation refers to: its dotted path, else a member of the type or
object that its receiver refers to. -/
def navigation? (d : Declarations) (t : Tree) : (level : Nat) → Nat → Option Symbol
  | 0, _ => none
  | n + 1, id =>
    match t.shape id with
    | .navigation receiver selector => do
      let name ← t.identifier? selector
      match (dottedPath? t id).bind fun p => d.qualifiedOn? (n + 1) p .value with
      | some s => return s
      | none =>
        let owner ← match t.shape receiver with
          | .identifier r => d.simpleOn? n r .value
          | .navigation _ _ => d.navigation? t n receiver
          | _ => none
        if owner.isType then d.qualifiedOn? (n + 1) (owner.qualifiedName ++ "." ++ name) .value
        else none
    | _ => none

def valueType? (d : Declarations) (below : Nat) (s : Symbol) : Option Symbol :=
  if s.isType then some s
  else
    match (Library.named s.qualifiedName).find? (·.symbol.kind == s.kind) with
    | some e => e.valueSymbol?
    | none =>
      if s.kind == .function && s.qualifiedName == d.qualify s.simpleName then do
        let returns ← d.functions.lookup s.simpleName
        d.type? below (← returns)
      else none

def typeOf? (d : Declarations) (t : Tree) : (level : Nat) → Nat → Option Symbol
  | 0, _ => none
  | n + 1, id =>
    let variableType (v : VariableInfo) : Option Symbol :=
      match v.type with
      | some name => d.type? n name
      | none => v.initializer.bind (d.typeOf? t n)
    let node := t.stripParens (t.argumentValue id)
    match t.shape node with
    | .identifier name =>
      match d.variableAt? name (t.span node).start with
      | some v => variableType v
      | none => (d.simpleOn? (n + 1) name .value).bind (d.valueType? n)
    | .call _ _ _ _ => (d.call? (n + 1) t node).bind (d.valueType? n)
    | .navigation _ selector =>
      match d.navigation? t (n + 1) node with
      | some s => d.valueType? n s
      | none => do
        let name ← t.identifier? selector
        let v ← d.variableAt? name (t.span node).start
        variableType v
    | .binary op _ _ => if op == "+" then some Library.context else none
    | _ => none

/-- The declaration that a node refers to. A selector stands for its navigation and a callee for its
call. -/
def resolve? (d : Declarations) (t : Tree) (id : Nat) : Option Symbol :=
  match t.shape id with
  | .identifier name =>
    match (t.parent? id).map fun p => (p, t.shape p) with
    | some (p, .navigation _ selector) =>
      if selector == id then d.navigation? t maxLevels p else d.simpleOn? maxLevels name .value
    | some (p, .call _ callee _ _) =>
      if callee == id then d.call? maxLevels t p else d.simpleOn? maxLevels name .value
    | _ => d.simpleOn? maxLevels name .value
  | .call _ _ _ _ => d.call? maxLevels t id
  | .navigation _ _ => d.navigation? t maxLevels id
  | .classDecl _ => (d.classAt? id).map (d.classSymbol (d.type? (maxLevels - 1)))
  | _ => none

def resolver (d : Declarations) : Resolver where
  resolve := d.resolve?
  typeOf := fun t id => d.typeOf? t maxLevels id

end Declarations
end CoroutineCheck.Kotlin

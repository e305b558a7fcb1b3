import CoroutineCheck.Kotlin.Declarations
import CoroutineCheck.Kotlin.Library
import CoroutineCheck.Text.Uppercase
/-!
# Resolving names

There is no class path. A simple name stands for an explicit import, else a class of the file, else
a function of the file where something is called, else a declaration that a star import brings in.
A qualified name is looked up in the library, then among the file's classes. The supertypes of a
class are resolved in turn, down to a bounded number of levels; a name without an answer is taken
at its word.
-/
namespace CoroutineCheck.Kotlin

inductive Usage where
  | called
  | value
  | type
deriving DecidableEq, Repr

def maxLevels : Nat := 9

/-- A declaration that only its name is known of: upper-case names are types or objects. -/
def guess (qualified : String) (usage : Usage) : Symbol :=
  let upper := match (simpleNameOf qualified).toList with
    | c :: _ => Text.isUppercase c
    | [] => false
  let kind := match usage, upper with
    | .type, _ | .called, true => SymbolKind.classType
    | .called, false => .function
    | .value, true => .objectType
    | .value, false => .property
  .named qualified kind []

def libraryEntry? (qualified : String) : Usage → Option Library.Entry
  | .called =>
    ((Library.named qualified).find? (·.symbol.kind == .function)).or (Library.typeNamed? qualified)
  | .value => (Library.named qualified).find? (·.symbol.kind != .function)
  | .type => Library.typeNamed? qualified

namespace Declarations

/-- The symbol of a class, with supertypes resolved by `above`. -/
def classSymbol (d : Declarations) (above : String → Option Symbol) (c : ClassInfo) : Symbol :=
  .named (d.qualify c.name) (if c.isObject then .objectType else .classType)
    (c.supertypes.map fun s => (above s).getD (guess s .type))

def qualified? (d : Declarations) (above : String → Option Symbol) (name : String) (usage : Usage) :
    Option Symbol :=
  match libraryEntry? name usage with
  | some e => some e.symbol
  | none => (d.classes.find? fun c => d.qualify c.2.name == name).map fun c => d.classSymbol above c.2

def simple? (d : Declarations) (above : String → Option Symbol) (name : String) (usage : Usage) :
    Option Symbol :=
  match d.imports.find? (·.visibleName? == some name) with
  | some i => some ((d.qualified? above i.path usage).getD (guess i.path usage))
  | none =>
    match d.classNamed? name with
    | some c => some (d.classSymbol above c)
    | none =>
      if usage == .called && (d.functions.lookup name).isSome then
        some (.named (d.qualify name) .function [])
      else
        (d.imports.filter (·.star)).findSome? fun i =>
          d.qualified? above (i.path ++ "." ++ name) usage

/-- The type of a name, with a number of levels to go. -/
def type? (d : Declarations) : (levels : Nat) → String → Option Symbol
  | 0, _ => none
  | n + 1, name =>
    if name.toList.contains '.' then d.qualified? (d.type? n) name .type
    else d.simple? (d.type? n) name .type

def qualifiedOn? (d : Declarations) (level : Nat) (name : String) (usage : Usage) : Option Symbol :=
  d.qualified? (d.type? (level - 1)) name usage

/-- A simple name on a level; below the last level nothing is resolved. -/
def simpleOn? (d : Declarations) : (level : Nat) → String → Usage → Option Symbol
  | 0, _, _ => none
  | n + 1, name, usage => d.simple? (d.type? n) name usage

end Declarations
end CoroutineCheck.Kotlin

import CoroutineCheck.Text.Search
/-!
# Symbols

A symbol is a declaration known by its qualified name, with the types it directly extends. A
dependency is a library coordinate declared by the project.
-/
namespace CoroutineCheck

inductive SymbolKind where
  | classType
  | interfaceType
  | objectType
  | function
  | property
  | localVariable
deriving DecidableEq, Repr, Inhabited

inductive Symbol where
  | mk (qualifiedName : String) (kind : SymbolKind) (package : String) (supertypes : List Symbol)
deriving Repr, Inhabited

namespace Symbol

def qualifiedName : Symbol → String
  | mk q _ _ _ => q

def kind : Symbol → SymbolKind
  | mk _ k _ _ => k

def package : Symbol → String
  | mk _ _ p _ => p

def supertypes : Symbol → List Symbol
  | mk _ _ _ s => s

end Symbol

/-- What stands before the last dot of a dotted name. -/
def packageOf (qualified : String) : String :=
  match Text.cutLast? '.' qualified.toList with
  | some (front, _) => String.ofList front
  | none => ""

def simpleNameOf (qualified : String) : String :=
  match Text.cutLast? '.' qualified.toList with
  | some (_, last) => String.ofList last
  | none => qualified

namespace Symbol

def named (qualified : String) (kind : SymbolKind) (supertypes : List Symbol) : Symbol :=
  mk qualified kind (packageOf qualified) supertypes

def simpleName (s : Symbol) : String :=
  simpleNameOf s.qualifiedName

def isType (s : Symbol) : Bool :=
  s.kind == .classType || s.kind == .interfaceType || s.kind == .objectType

mutual

def isSubtypeOf (name : String) : Symbol → Bool
  | mk q _ _ above => q == name || anySubtypeOf name above

def anySubtypeOf (name : String) : List Symbol → Bool
  | [] => false
  | s :: rest => isSubtypeOf name s || anySubtypeOf name rest

end

end Symbol

/-- How far up the hierarchy a type is looked for: among the direct supertypes only, or above them
too. -/
inductive SupertypePolicy where
  | direct
  | transitive
deriving DecidableEq, Repr, Inhabited

namespace SupertypePolicy

def label : SupertypePolicy → String
  | direct => "direct"
  | transitive => "transitive"

def ofLabel? (s : String) : Option SupertypePolicy :=
  [direct, transitive].find? (·.label == s)

end SupertypePolicy

structure Dependency where
  coordinate : String
deriving DecidableEq, Repr

/-- A dependency matches an artifact that its coordinate mentions. -/
def Dependency.mentions (d : Dependency) (artifact : String) : Bool :=
  Text.contains artifact.toList d.coordinate.toList

end CoroutineCheck

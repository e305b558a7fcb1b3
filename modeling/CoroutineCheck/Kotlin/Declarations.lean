import CoroutineCheck.Kotlin.Import
import CoroutineCheck.Span
/-!
# The declarations of a file

What a file declares and imports, by name. Classes are listed with the node that stands for them;
variables with the span in which they can be seen.
-/
namespace CoroutineCheck.Kotlin

structure ClassInfo where
  name : String
  isObject : Bool
  supertypes : List String
deriving DecidableEq, Repr

structure VariableInfo where
  name : String
  type : Option String
  initializer : Option Nat
  scope : Span
deriving DecidableEq, Repr

structure Declarations where
  package : Option Package
  imports : List Import
  classes : List (Nat × ClassInfo)
  functions : List (String × Option String)
  bindings : List VariableInfo
deriving DecidableEq, Repr

namespace Declarations

def empty : Declarations := ⟨none, [], [], [], []⟩

/-- Record a function's return type; a later declaration of the name replaces an earlier one. -/
def addFunction (d : Declarations) (name : String) (returns : Option String) : Declarations :=
  { d with functions := d.functions.filter (·.1 != name) ++ [(name, returns)] }

def addImport (d : Declarations) (i : Import) : Declarations :=
  { d with imports := d.imports ++ [i] }

def addClass (d : Declarations) (node : Nat) (c : ClassInfo) : Declarations :=
  { d with classes := d.classes ++ [(node, c)] }

def addVariable (d : Declarations) (v : VariableInfo) : Declarations :=
  { d with bindings := d.bindings ++ [v] }

def packagePath (d : Declarations) : String :=
  match d.package with
  | some p => p.path
  | none => ""

def qualify (d : Declarations) (name : String) : String :=
  if d.packagePath == "" then name else d.packagePath ++ "." ++ name

def classAt? (d : Declarations) (node : Nat) : Option ClassInfo :=
  d.classes.lookup node

def classNamed? (d : Declarations) (name : String) : Option ClassInfo :=
  (d.classes.find? (·.2.name == name)).map (·.2)

/-- The first of the shortest. -/
def shortest? : List VariableInfo → Option VariableInfo
  | [] => none
  | v :: rest =>
    match shortest? rest with
    | some w => if w.scope.length < v.scope.length then some w else some v
    | none => some v

/-- A variable can be seen from the start of its scope to the end, both included. -/
def VariableInfo.visibleAt (v : VariableInfo) (name : String) (offset : Nat) : Bool :=
  v.name == name && v.scope.start ≤ offset && offset ≤ v.scope.stop

/-- The variable of a name with the shortest scope around an offset. -/
def variableAt? (d : Declarations) (name : String) (offset : Nat) : Option VariableInfo :=
  shortest? (d.bindings.filter (VariableInfo.visibleAt · name offset))

end Declarations
end CoroutineCheck.Kotlin

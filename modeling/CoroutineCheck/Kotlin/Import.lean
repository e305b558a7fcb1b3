import CoroutineCheck.Symbol
import CoroutineCheck.Text.Blank
/-!
# Package headers, imports and type names

The texts of declarations, reduced to dotted names.
-/
namespace CoroutineCheck.Kotlin

structure Package where
  line : Nat
  path : String
deriving DecidableEq, Repr

structure Import where
  line : Nat
  path : String
  rename : Option String
  star : Bool
deriving DecidableEq, Repr

namespace Import

/-- What follows the keyword, without the semicolons at the end. -/
def body? (text : List Char) : Option (List Char) :=
  (Text.after? "import".toList (Text.trim text)).map fun rest =>
    Text.trim ((Text.trim rest).reverse.dropWhile (· == ';')).reverse

def splitRename (body : List Char) : List Char × Option (List Char) :=
  match Text.cut? " as ".toList body with
  | some (path, name) => (path, some (Text.trim name))
  | none => (body, none)

/-- Read an import from its text; an import without a path is none. -/
def ofText? (text : List Char) (line : Nat) : Option Import := do
  let body ← body? text
  let (front, rename) := splitRename body
  let dotted := Text.squeeze front
  let (path, star) := match Text.before? ".*".toList dotted with
    | some package => (package, true)
    | none => (dotted, false)
  if path.isEmpty then none
  else return ⟨line, String.ofList path, rename.map String.ofList, star⟩

def visibleName? (i : Import) : Option String :=
  if i.star then none else some (i.rename.getD (simpleNameOf i.path))

end Import

/-- The characters of a type's name: type arguments, question and exclamation marks and blanks are
left out, and a parenthesis outside type arguments ends it. -/
def typeNameFrom (depth : Nat) : List Char → List Char
  | [] => []
  | '<' :: cs => typeNameFrom (depth + 1) cs
  | '>' :: cs => typeNameFrom (depth - 1) cs
  | c :: cs =>
    if depth = 0 then
      if c = '(' then []
      else if Text.isBlank c || c == '?' || c == '!' then typeNameFrom 0 cs
      else c :: typeNameFrom 0 cs
    else typeNameFrom depth cs

def typeName (text : List Char) : String :=
  String.ofList (typeNameFrom 0 text)

end CoroutineCheck.Kotlin

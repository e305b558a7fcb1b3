import CoroutineCheck.Suppression.Directive
import CoroutineCheck.Tree.Basic
/-!
# Suppressing annotations

`@Suppress` and `@SuppressLint` before the body of a class suppress the issues they name inside the
class; `@file:Suppress` before the package header and the imports does so for the file.
-/
namespace CoroutineCheck

namespace Marker

def markers : List (List Char) :=
  ["@Suppress(".toList, "@SuppressLint(".toList, "@file:Suppress(".toList]

/-- What follows each occurrence of a text. -/
def tailsAfter (sub : List Char) : List Char → List (List Char)
  | [] => (Text.after? sub []).toList
  | c :: cs => (Text.after? sub (c :: cs)).toList ++ tailsAfter sub cs

/-- The arguments of an annotation, without quotes; an open list goes to the end. -/
private def arguments (tail : List Char) : List (List Char) :=
  (Text.pieces ',' (tail.takeWhile (· != ')'))).map fun a => Text.trimAll '"' (Text.trim a)

def suppresses (header : List Char) (issue : String) : Bool :=
  markers.any fun marker =>
    (tailsAfter marker header).any fun tail => (arguments tail).any (coversIssue issue)

def header (text : List Char) : List Char :=
  text.takeWhile (· != '{')

private def startsWith (lead text : List Char) : Bool := (Text.after? lead text).isSome

/-- Whether the lines before the package header and the imports suppress an issue. -/
def fileSuppresses (source : List Char) (issue : String) : Bool :=
  ((((Text.lines source).map Text.trimLeft).takeWhile fun l =>
      !startsWith "package ".toList l && !startsWith "import ".toList l).filter
    (startsWith "@file:".toList)).any (suppresses · issue)

end Marker

def Tree.suppressed (t : Tree) (id : Nat) (issue : String) : Bool :=
  ((t.ancestors id).filter (t.kind · == .classDecl)).any
      (fun c => Marker.suppresses (Marker.header (t.text c)) issue) ||
    Marker.fileSuppresses t.source.toList issue

end CoroutineCheck

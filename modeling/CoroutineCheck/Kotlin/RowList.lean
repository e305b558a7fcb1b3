import CoroutineCheck.FileTree.Basic
import CoroutineCheck.Kotlin.Row
/-!
# Lists of rows

A parser hands its tree over as a list: parents before children, each row with the position of its
parent. In a file, a row is a line of parent, `named` or `plain`, start, end, side and kind, with a
hyphen for a parent or a side that is missing. The rows of `A.kt` stand in `A.kt.rows`.
-/
namespace CoroutineCheck.Kotlin

structure FlatRow where
  parent : Option Nat
  kind : String
  named : Bool
  span : Span
  side : Option Side
deriving DecidableEq, Repr

namespace FlatRow

/-- Put rows from a position on together with their children, and pair what stands on its own with
the position of its parent. -/
def gather : (position : Nat) → List FlatRow → List (Option Nat × Row)
  | _, [] => []
  | i, r :: rest =>
    let later := gather (i + 1) rest
    let own := (later.filter (·.1 == some i)).map Prod.snd
    (r.parent, .mk r.kind r.named r.span r.side own) :: later.filter (·.1 != some i)

/-- The tree of a list of rows: the first row without a parent. -/
def tree? (rows : List FlatRow) : Option Row :=
  ((gather 0 rows).find? (·.1 == none)).map Prod.snd

private def sideOf? : String → Option (Option Side)
  | "-" => some none
  | "left" => some (some .left)
  | "right" => some (some .right)
  | _ => none

private def parentOf? (word : String) : Option (Option Nat) :=
  if word == "-" then some none else word.toNat?.map some

def ofLine? (line : List Char) : Option FlatRow :=
  match (Text.pieces ' ' line).map String.ofList with
  | parent :: named :: start :: stop :: side :: kind => do
    return {
      parent := ← parentOf? parent
      kind := " ".intercalate kind
      named := named == "named"
      span := ⟨← start.toNat?, ← stop.toNat?⟩
      side := ← sideOf? side }
  | _ => none

end FlatRow

def readRows? (text : String) : Option Row := do
  FlatRow.tree? (← (Text.lines text.toList).mapM FlatRow.ofLine?)

mutual

/-- The source texts of a file tree that have rows beside them, with their rows. -/
def recordedRows : FileTree → List (String × Row)
  | .file _ => []
  | .dir es => recordedAmong es es

def recordedAmong (all : List (String × FileTree)) :
    List (String × FileTree) → List (String × Row)
  | [] => []
  | (name, t) :: rest =>
    let here : Option (String × Row) := do
      let source ← (← t.content?).text?
      let rows ← (← (← all.lookup (name ++ ".rows")).content?).text?
      return (source, ← readRows? rows)
    here.toList ++ recordedRows t ++ recordedAmong all rest

end

end CoroutineCheck.Kotlin

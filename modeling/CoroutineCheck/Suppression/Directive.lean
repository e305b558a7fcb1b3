import CoroutineCheck.Text.Blank
import CoroutineCheck.Text.Lines
/-!
# Allow directives

A line comment `// coro-lint: allow(id, id) reason="text"` allows the named issues on its own line
and on the next one. The comment starts at the first `//` of the line.
-/
namespace CoroutineCheck

structure Directive where
  issues : List (List Char)
  reason : Option (List Char)
deriving DecidableEq, Repr

inductive Allowance where
  | denied
  | allowed (reason : Option String)
deriving DecidableEq, Repr

def Allowance.isAllowed : Allowance → Bool
  | .allowed _ => true
  | .denied => false

/-- A listed name covers an issue if it is its id in any case, or `all`. -/
def coversIssue (issue : String) (name : List Char) : Bool :=
  Text.sameIgnoringCase name issue.toList || name == "all".toList

namespace Directive

def readReason? (rest : List Char) : Option (List Char) := do
  let value ← Text.after? "reason=".toList rest
  let quoted ← Text.after? ['"'] (Text.trim value)
  let (reason, _) ← Text.cut? ['"'] quoted
  return reason

def ofComment? (comment : List Char) : Option Directive := do
  let directive ← Text.after? "coro-lint:".toList comment
  let content ← Text.after? "allow(".toList (Text.trim directive)
  let (list, rest) ← Text.cut? [')'] (Text.trim content)
  let issues := ((Text.pieces ',' list).map Text.trim).filter (!·.isEmpty)
  if issues.isEmpty then none
  else return ⟨issues, readReason? (Text.trim rest)⟩

/-- The directive of a line, which may hold code before the comment. -/
def ofLine? (line : List Char) : Option Directive := do
  let (_, comment) ← Text.cut? "//".toList line
  ofComment? (Text.trim (comment.dropWhile (· == '/')))

def covers (d : Directive) (issue : String) : Bool :=
  d.issues.any (coversIssue issue)

/-- The allowance that line `n` (from one) of a text gives to an issue. -/
def onLine? (lines : List (List Char)) (n : Nat) (issue : String) : Option Allowance := do
  let line ← if n = 0 then none else lines[n - 1]?
  let d ← ofLine? line
  if d.covers issue then return .allowed (d.reason.map String.ofList) else none

end Directive

/-- The allowance for an issue at a line: a directive on the line before it counts first. -/
def allowanceAt (content : List Char) (line : Nat) (issue : String) : Allowance :=
  let ls := Text.lines content
  match Directive.onLine? ls (line - 1) issue with
  | some a => a
  | none => (Directive.onLine? ls line issue).getD .denied

end CoroutineCheck

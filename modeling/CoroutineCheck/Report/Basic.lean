import CoroutineCheck.Fix.Basic
import CoroutineCheck.Path
/-!
# Issues and violations

An issue describes a rule; a violation is one place where a file breaks it. A violation has three
texts: one line for lists, a few lines for reading, and a diagnostic that points into the source.
-/
namespace CoroutineCheck

inductive Severity where
  | info
  | warning
  | error
deriving DecidableEq, Repr, Inhabited

namespace Severity

def label : Severity → String
  | info => "info"
  | warning => "warning"
  | error => "error"

def all : List Severity := [info, warning, error]

def ofLabel? (s : String) : Option Severity :=
  all.find? (·.label == s)

def rank : Severity → Nat
  | info => 0
  | warning => 1
  | error => 2

def atLeast (s threshold : Severity) : Bool :=
  threshold.rank ≤ s.rank

end Severity

structure Category where
  name : String
  priority : Nat
deriving DecidableEq, Repr

structure Issue where
  id : String
  name : String
  title : String
  explanation : String
  category : Category
  priority : Nat
  severity : Severity
deriving DecidableEq, Repr

structure Location where
  file : Path
  line : Nat
  column : Nat
  offset : Nat
  length : Nat
deriving DecidableEq, Repr

structure Violation where
  code : String
  rule : String
  severity : Severity
  location : Location
  message : String
  fix : Option Fix
deriving DecidableEq, Repr

structure Diagnostic where
  message : String
  help : Option String
  label : String
  offset : Nat
  length : Nat
deriving DecidableEq, Repr

namespace Location

def text (l : Location) : String :=
  s!"{l.file.text}:{l.line}:{l.column}"

end Location

namespace Violation

def line (v : Violation) : String :=
  s!"{v.location.text}: {v.severity.label} [{v.code}] {v.message}"

def paragraph (v : Violation) : String :=
  s!"{v.code} {v.rule} at {v.location.text}\n  {v.severity.label}: {v.message}\n" ++
    match v.fix with
    | some f => s!"  = fix: {f.name}\n"
    | none => ""

def diagnostic (v : Violation) : Diagnostic where
  message := s!"[{v.code}] {v.message}"
  help := v.fix.map fun f => s!"fix available: {f.name}"
  label := v.rule
  offset := v.location.offset
  length := v.location.length

/-- The order of reports: by file, then line, then column. -/
def before (a b : Violation) : Bool :=
  ((a.location.file.compare b.location.file).then
    ((compare a.location.line b.location.line).then
      (compare a.location.column b.location.column))).isLE

end Violation
end CoroutineCheck

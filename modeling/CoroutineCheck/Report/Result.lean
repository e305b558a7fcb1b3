import CoroutineCheck.Report.Basic
/-!
# Results

The violations found in a set of files, with the number of files that were checked.
-/
namespace CoroutineCheck

structure LintResult where
  violations : List Violation
  filesChecked : Nat
deriving DecidableEq, Repr, Inhabited

namespace LintResult

def empty : LintResult := ⟨[], 0⟩

def push (r : LintResult) (v : Violation) : LintResult :=
  { r with violations := r.violations ++ [v] }

def append (r s : LintResult) : LintResult :=
  ⟨r.violations ++ s.violations, r.filesChecked + s.filesChecked⟩

/-- Violations in report order; those at one place keep their order. -/
def sort (r : LintResult) : LintResult :=
  { r with violations := r.violations.mergeSort Violation.before }

def count (r : LintResult) (s : Severity) : Nat :=
  r.violations.countP (·.severity == s)

def reaches (r : LintResult) (threshold : Severity) : Bool :=
  r.violations.any (·.severity.atLeast threshold)

def fixableCount (r : LintResult) : Nat :=
  r.violations.countP (·.fix.isSome)

end LintResult
end CoroutineCheck

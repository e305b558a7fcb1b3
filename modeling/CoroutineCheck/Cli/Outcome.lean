import CoroutineCheck.FileTree.Basic
/-!
# Outcomes

What a run of the program leaves behind: an exit status, text on the standard output, the lines on
the standard error, and the files it writes.
-/
namespace CoroutineCheck.Cli

inductive Failure where
  | settings (path : Path)
  | gradle (root : Path)
  | noRules
  | plan
  | analysis
  | unreadable (path : Path)
  | unwritable (path : Path)
  | settingsExist (path : Path)
deriving DecidableEq, Repr

def Failure.message : Failure → String
  | settings path => s!"Failed to load config: {path.text}"
  | gradle root => s!"Failed to read Gradle files under {root.text}"
  | noRules => "No rules selected. Run `coro-lint list-rules` to see available rules."
  | plan => "Failed to build analyzer"
  | analysis => "Analysis failed"
  | unreadable path => s!"Failed to read {path.text}"
  | unwritable path => s!"Failed to write {path.text}"
  | settingsExist path =>
    s!"Configuration file already exists at {path.text}. Use --force to overwrite."

structure Outcome where
  status : Nat
  output : String
  notes : List String
  failure : Option Failure
  writes : List (Path × String)
deriving DecidableEq, Repr

namespace Outcome

def printed (text : String) : Outcome := ⟨0, text, [], none, []⟩

def failed (f : Failure) : Outcome := ⟨1, "", [], some f, []⟩

def misused (note : String) : Outcome := ⟨2, "", [note], none, []⟩

def diskAfter (o : Outcome) (d : Disk) : Disk :=
  o.writes.foldl (fun d w => d.write w.1 w.2) d

end Outcome
end CoroutineCheck.Cli

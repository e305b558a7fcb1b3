import CoroutineCheck.Analysis.Frontend
import CoroutineCheck.Detector
import CoroutineCheck.FileTree.ExcludePattern
import CoroutineCheck.FileTree.Walk
import CoroutineCheck.Report.Result
import CoroutineCheck.Settings.Basic
/-!
# Analysis

An analysis is planned from what was asked for and from the settings, and then run on one source text
or on all files below its root. Files come in path order; a file that cannot be parsed is passed over
unless the plan says that it fails the analysis.
-/
namespace CoroutineCheck

inductive AnalysisError where
  | missingFrontend
  | badPattern
  | walk (e : WalkError)
  | notText (path : Path)
  | parse (path : Path) (failure : ParseFailure)
deriving DecidableEq, Repr

def AnalysisError.message : AnalysisError → String
  | missingFrontend => "No language frontend configured"
  | badPattern => "Invalid glob pattern"
  | walk _ => "Failed to walk source tree"
  | notText _ => "IO error: stream did not contain valid UTF-8"
  | parse path failure => s!"Parse error in {path.text}: {failure.message}"

/-- What was asked for. Without a root, the settings say where to look. -/
structure Plan where
  root : Option Path
  detectors : List Detector
  excludes : List String
  settings : Settings
  frontend : Option Frontend
  dependencies : List Dependency
  failOnParseError : Bool

structure Analysis where
  root : Path
  detectors : List Detector
  excludes : List ExcludePattern
  settings : Settings
  frontend : Frontend
  dependencies : List Dependency
  failOnParseError : Bool

/-- Make a plan ready to run. Patterns and dependencies of the settings follow those asked for. -/
def Plan.analysis (p : Plan) (d : Disk) : Except AnalysisError Analysis := do
  let frontend ← match p.frontend with
    | some f => pure f
    | none => throw .missingFrontend
  let excludes ←
    match (p.excludes ++ p.settings.scope.exclude).mapM ExcludePattern.ofText? with
    | some es => pure es
    | none => throw .badPattern
  return {
    root := d.absolute (p.root.getD p.settings.scope.root)
    detectors := p.detectors
    excludes := excludes
    settings := p.settings
    frontend := frontend
    dependencies := p.dependencies ++ p.settings.dependencies
    failOnParseError := p.failOnParseError }

namespace Analysis

def enabledDetectors (a : Analysis) : List Detector :=
  a.detectors.filter fun d => a.settings.isEnabled d.issue.id

def violationsIn (a : Analysis) (path : Path) (source : String) :
    Except AnalysisError (List Violation) := do
  let parsed ← (a.frontend.parse source).mapError (AnalysisError.parse path)
  let file := SourceFile.seenFrom a.root path parsed.tree parsed.resolver a.dependencies
  return (file.run a.settings.severity? a.enabledDetectors).violations

/-- Whether a pattern leaves a path out, in full or as seen from the root. -/
def isExcluded (a : Analysis) (path : Path) : Bool :=
  let relative := Path.relativeTo a.root path
  a.excludes.any fun p => p.isMatch path.text || p.isMatch relative.text

def files (a : Analysis) (d : Disk) : Except AnalysisError (List (Path × Content)) := do
  let found ← (d.walk ⟨false, a.settings.scope.respectIgnoreFiles⟩ a.root).mapError .walk
  let kept := found.filter fun f => a.frontend.reads f.1 && !a.isExcluded f.1
  return kept.mergeSort fun x y => x.1.le y.1

def resultOf (a : Analysis) (path : Path) (c : Content) : Except AnalysisError LintResult :=
  match c.text? with
  | none => .error (.notText path)
  | some source =>
    match a.violationsIn path source with
    | .ok vs => .ok ⟨vs, 1⟩
    | .error (.parse p failure) =>
      if a.failOnParseError then .error (.parse p failure) else .ok .empty
    | .error e => .error e

def run (a : Analysis) (d : Disk) : Except AnalysisError LintResult := do
  let results ← (← a.files d).mapM fun f => a.resultOf f.1 f.2
  return (results.foldl LintResult.append .empty).sort

end Analysis
end CoroutineCheck

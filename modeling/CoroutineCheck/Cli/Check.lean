import CoroutineCheck.Analysis.Basic
import CoroutineCheck.Cli.Arguments
import CoroutineCheck.Cli.SettingsFile
import CoroutineCheck.Fix.Batch
import CoroutineCheck.Gradle.Discovery
import CoroutineCheck.Kotlin.Frontend
import CoroutineCheck.Rules.Registry
/-!
# The check command

A check analyses a target and reports what it finds. If asked to, it also mends files: in each
file all fixes that fit together are applied. The check fails if a violation of sufficient severity
remains.
-/
namespace CoroutineCheck.Cli

/-- The fixes for one file, each with the position of its violation in the result. -/
structure FileFixes where
  path : Path
  fixes : List (Nat × Fix)
deriving DecidableEq, Repr

structure FixedFile where
  path : Path
  text : String
  gone : List Nat
deriving DecidableEq, Repr

structure Repairs where
  files : List FixedFile
  failure : Option Failure
deriving DecidableEq, Repr

/-- The path of the file that a violation is in. A target that is a file has the empty path. -/
def sourcePath (root file : Path) : Path :=
  if file.text.isEmpty then root else root.join file

def fixable (root : Path) (vs : List Violation) : List (Nat × Path × Fix) :=
  vs.zipIdx.filterMap fun x => x.1.fix.map fun f => (x.2, sourcePath root x.1.location.file, f)

namespace FileFixes

/-- Put a fix behind those of its file. Files come in path order. Paths with the same components stand
for one file, which keeps the path that it was met with first. -/
def insert (path : Path) (f : Nat × Fix) : List FileFixes → List FileFixes
  | [] => [⟨path, [f]⟩]
  | g :: rest =>
    match path.compare g.path with
    | .lt => ⟨path, [f]⟩ :: g :: rest
    | .eq => ⟨g.path, g.fixes ++ [f]⟩ :: rest
    | .gt => g :: insert path f rest

def ofResult (root : Path) (r : LintResult) : List FileFixes :=
  (fixable root r.violations).foldl (fun files f => insert f.2.1 (f.1, f.2.2) files) []

/-- Fix a file. One in which no fix applies stays as it is. -/
def apply (d : Disk) (g : FileFixes) : Except Failure (Option FixedFile) :=
  match d.read? g.path with
  | none => .error (.unreadable g.path)
  | some source =>
    let batch := Fix.applyAll source (g.fixes.map Prod.snd)
    if batch.applied.isEmpty then .ok none
    else .ok (some ⟨g.path, batch.text, batch.applied.filterMap fun i => g.fixes[i]?.map Prod.fst⟩)

end FileFixes

namespace Repairs

def none : Repairs := ⟨[], Option.none⟩

/-- Fix files one after the other, each on the disk as it is by then. The first file that cannot be
read ends it; what has been written stays. -/
def run (d : Disk) : List FileFixes → Repairs
  | [] => none
  | g :: rest =>
    match g.apply d with
    | .error failure => ⟨[], some failure⟩
    | .ok Option.none => run d rest
    | .ok (some f) =>
      let later := run (d.write f.path f.text) rest
      ⟨f :: later.files, later.failure⟩

def gone (r : Repairs) : List Nat := r.files.flatMap FixedFile.gone

end Repairs

def FixedFile.note (f : FixedFile) : String :=
  s!"Fixed {f.gone.length} issue(s) in {f.path.text}\n"

def remains (threshold : Severity) (vs : List Violation) (gone : List Nat) : Bool :=
  vs.zipIdx.any fun x => x.1.severity.atLeast threshold && !gone.contains x.2

def ruleNames (text : String) : List String :=
  (((Text.pieces ',' text.toList).map Text.trim).filter (!·.isEmpty)).map String.ofList

def selectedDetectors (s : Settings) : Option String → List Detector
  | some text => Rules.selected s (ruleNames text)
  | none => Rules.configured s

def buildDependencies (h : Host) (target : Path) : Except Failure (List Dependency) :=
  let root := h.startDirectory target
  (Gradle.discover h.disk root).mapError fun _ => .gradle root

structure CheckResult where
  result : LintResult
  repairs : Repairs
  failed : Bool
deriving DecidableEq, Repr

namespace CheckResult

/-- What a check makes of the result of an analysis: it fixes files if asked to, and fails if a
violation at or above the threshold is left. -/
def ofAnalysis (d : Disk) (root : Path) (fix : Bool) (threshold : Severity) (r : LintResult) :
    CheckResult :=
  let repairs := if fix then Repairs.run d (FileFixes.ofResult root r) else .none
  ⟨r, repairs, remains threshold r.violations repairs.gone⟩

def outcome (c : CheckResult) (format : OutputFormat) : Outcome where
  status := if c.repairs.failure.isSome || c.failed then 1 else 0
  output := c.result.output format ++ String.join (c.repairs.files.map FixedFile.note)
  notes := c.result.notes format
  failure := c.repairs.failure
  writes := c.repairs.files.map fun f => (f.path, f.text)

end CheckResult

def CheckRequest.run (q : CheckRequest) (h : Host) (frontend : Frontend) (config : Option Path) :
    Except Failure CheckResult := do
  let settings ← h.settings q.path config
  let found ←
    if q.discoverGradle && settings.project.discoverGradle then buildDependencies h q.path else pure []
  let detectors := selectedDetectors settings q.rules
  if detectors.isEmpty then throw .noRules
  let plan : Plan :=
    { root := some q.path
      detectors := detectors
      excludes := q.excludes
      settings := settings
      frontend := some frontend
      dependencies := found
      failOnParseError := false }
  let analysis ← (plan.analysis h.disk).mapError fun _ => .plan
  let result ← (analysis.run h.disk).mapError fun _ => .analysis
  return .ofAnalysis h.disk analysis.root q.fix settings.failThreshold result

def CheckRequest.outcome (q : CheckRequest) (h : Host) (frontend : Frontend) (config : Option Path) :
    Outcome :=
  match q.run h frontend config with
  | .error f => .failed f
  | .ok r => r.outcome q.format

end CoroutineCheck.Cli

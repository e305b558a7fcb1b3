import CoroutineCheck.SourceFile
import CoroutineCheck.Suppression.Marker
/-!
# Detectors and the collection of findings

A detector looks at one node and returns findings. The collector turns findings into violations,
leaving out those that a directive or an annotation suppresses; annotations are looked for around
the node that was being visited.
-/
namespace CoroutineCheck

structure Finding where
  issue : Issue
  span : Span
  message : String
  fix : Option Fix
deriving DecidableEq, Repr

structure Detector where
  issue : Issue
  kinds : List Kind
  findings : SourceFile → Nat → List Finding

/-- The violations collected so far, the number of suppressed findings, and the visit under way. -/
structure Collector where
  visited : Option Nat
  severity : Option Severity
  violations : List Violation
  suppressed : Nat
deriving DecidableEq, Repr

namespace Collector

def empty : Collector := ⟨none, none, [], 0⟩

def start (c : Collector) (node : Nat) (severity : Option Severity) : Collector :=
  { c with visited := some node, severity := severity }

def isSuppressed (f : SourceFile) (visited : Option Nat) (issue : String) (span : Span) : Bool :=
  (allowanceAt f.content (Text.position f.content span.start).line issue).isAllowed ||
    match visited with
    | some node => f.tree.suppressed node issue
    | none => false

def violation (f : SourceFile) (severity : Option Severity) (d : Finding) : Violation where
  code := d.issue.id
  rule := d.issue.name
  severity := severity.getD d.issue.severity
  location := f.location d.span
  message := d.message
  fix := d.fix

def report (f : SourceFile) (c : Collector) (d : Finding) : Collector :=
  if isSuppressed f c.visited d.issue.id d.span then { c with suppressed := c.suppressed + 1 }
  else { c with violations := c.violations ++ [violation f c.severity d] }

def visit (f : SourceFile) (severityOf : String → Option Severity) (node : Nat) (c : Collector)
    (d : Detector) : Collector :=
  (d.findings f node).foldl (report f) (c.start node (severityOf d.issue.id))

end Collector

def Detector.applicable (ds : List Detector) (k : Kind) : List Detector :=
  ds.filter (·.kinds.contains k)

/-- Run detectors over a file: every node in walk order, every detector in order at each node. -/
def SourceFile.run (f : SourceFile) (severityOf : String → Option Severity)
    (detectors : List Detector) : Collector :=
  (f.tree.walk f.tree.root).foldl
    (fun c node =>
      (Detector.applicable detectors (f.tree.kind node)).foldl (Collector.visit f severityOf node) c)
    Collector.empty

end CoroutineCheck

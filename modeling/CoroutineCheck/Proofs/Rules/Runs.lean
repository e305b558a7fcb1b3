import CoroutineCheck.Detector
/-!
# Runs of a detector

The reports of a detector are its findings over a whole walk, each with the node that was visited,
before anything is suppressed. A run of the detector turns the reports that nothing suppresses into
violations, in the same order, and counts the others.
-/
namespace CoroutineCheck

def Detector.reports (d : Detector) (f : SourceFile) : List (Nat × Finding) :=
  (f.tree.walk f.tree.root).flatMap fun n =>
    if d.kinds.contains (f.tree.kind n) then (d.findings f n).map (n, ·) else []

namespace Collector

variable {f : SourceFile} {severityOf : String → Option Severity} {d : Detector}

def hides (f : SourceFile) (r : Nat × Finding) : Bool :=
  isSuppressed f (some r.1) r.2.issue.id r.2.span

/-- Violations and suppressed findings are those from before and those of some reports. -/
structure Adds (f : SourceFile) (severity : Option Severity) (c c' : Collector)
    (rs : List (Nat × Finding)) : Prop where
  violations : c'.violations =
    c.violations ++ ((rs.filter (!hides f ·)).map fun r => violation f severity r.2)
  suppressed : c'.suppressed = c.suppressed + rs.countP (hides f)

namespace Adds

variable {severity : Option Severity} {c c' c'' : Collector} {rs rs' : List (Nat × Finding)}

theorem refl (c : Collector) : Adds f severity c c [] := ⟨by simp, by simp⟩

theorem trans (h : Adds f severity c c' rs) (h' : Adds f severity c' c'' rs') :
    Adds f severity c c'' (rs ++ rs') where
  violations := by simp [h'.violations, h.violations]
  suppressed := by
    rw [h'.suppressed, h.suppressed, List.countP_append]
    omega

end Adds

private theorem adds_report {c : Collector} {node : Nat} (hc : c.visited = some node) (found : Finding) :
    Adds f c.severity c (report f c found) [(node, found)] := by
  have hhides : hides f (node, found) = isSuppressed f c.visited found.issue.id found.span := by
    rw [hc]
    rfl
  unfold report
  split
  case isTrue h => exact ⟨by simp [hhides, h], by simp [hhides, h]⟩
  case isFalse h => exact ⟨by simp [hhides, h], by simp [hhides, h]⟩

private theorem report_visit (c : Collector) (found : Finding) :
    (report f c found).visited = c.visited ∧ (report f c found).severity = c.severity := by
  unfold report
  split
  · exact ⟨rfl, rfl⟩
  · exact ⟨rfl, rfl⟩

private theorem adds_foldl_report {c : Collector} {node : Nat} (hc : c.visited = some node)
    (found : List Finding) :
    Adds f c.severity c (found.foldl (report f) c) (found.map (node, ·)) := by
  induction found generalizing c with
  | nil => exact .refl c
  | cons x found ih =>
    obtain ⟨hvisited, hseverity⟩ := report_visit (f := f) c x
    have hrest := ih (hvisited.trans hc)
    rw [hseverity] at hrest
    exact (adds_report hc x).trans hrest

theorem adds_visit (c : Collector) (node : Nat) :
    Adds f (severityOf d.issue.id) c (visit f severityOf node c d)
      ((d.findings f node).map (node, ·)) :=
  have h := adds_foldl_report (f := f) (c := c.start node (severityOf d.issue.id)) rfl
    (d.findings f node)
  ⟨h.violations, h.suppressed⟩

end Collector

open Collector in
/-- A run of one detector collects its reports: those that nothing suppresses become violations, in
the order of the walk, and the others are counted. -/
theorem SourceFile.run_adds_reports (f : SourceFile) (severityOf : String → Option Severity)
    (d : Detector) :
    Adds f (severityOf d.issue.id) Collector.empty (f.run severityOf [d]) (d.reports f) := by
  unfold SourceFile.run Detector.reports
  generalize Collector.empty = c
  induction f.tree.walk f.tree.root generalizing c with
  | nil => exact .refl c
  | cons node nodes ih =>
    rw [List.foldl_cons, List.flatMap_cons]
    refine .trans ?_ (ih _)
    unfold Detector.applicable
    split
    case isTrue hkind =>
      simp only [List.filter_cons, hkind, if_true, List.filter_nil, List.foldl_cons, List.foldl_nil]
      exact adds_visit c node
    case isFalse hkind =>
      simp only [List.filter_cons, hkind, List.filter_nil]
      exact .refl c

end CoroutineCheck

import CoroutineCheck.Analysis.Basic
import CoroutineCheck.Kotlin.Frontend
import CoroutineCheck.Proofs.Rules.Extent
import CoroutineCheck.Proofs.Rules.Runs
import Mathlib.Data.List.Basic
/-!
# Rules do not interfere

All detectors of an analysis report to one collector. Each visit sets the collector's node and
severity anew and only adds to the violations, so a run is the concatenation of its visits. Hence the
violations of one rule are those that its detector finds alone, whatever the other rules are and
however they are set.
-/
namespace CoroutineCheck

/-- A detector that reports no issue but its own. -/
def Detector.ReportsOwn (d : Detector) : Prop :=
  ∀ f node, ∀ found ∈ d.findings f node, found.issue.id = d.issue.id

namespace Collector

variable {f : SourceFile} {severityOf severityOf' : String → Option Severity}

def violationsAt (f : SourceFile) (severityOf : String → Option Severity) (node : Nat) (d : Detector) :
    List Violation :=
  (((d.findings f node).map (node, ·)).filter (!hides f ·)).map fun r =>
    violation f (severityOf d.issue.id) r.2

private theorem violations_visit (c : Collector) (node : Nat) (d : Detector) :
    (visit f severityOf node c d).violations = c.violations ++ violationsAt f severityOf node d :=
  (adds_visit c node).violations

theorem violations_foldl {α : Type} {step : Collector → α → Collector} {added : α → List Violation}
    (hstep : ∀ c x, (step c x).violations = c.violations ++ added x) (xs : List α) (c : Collector) :
    (xs.foldl step c).violations = c.violations ++ xs.flatMap added := by
  induction xs generalizing c with
  | nil => simp
  | cons x xs ih => simp [ih, hstep]

private theorem code_of_mem_violationsAt {d : Detector} (hd : d.ReportsOwn) {node : Nat} {v : Violation}
    (hv : v ∈ violationsAt f severityOf node d) : v.code = d.issue.id := by
  obtain ⟨r, hr, rfl⟩ := List.mem_map.mp hv
  obtain ⟨found, hfound, rfl⟩ := List.mem_map.mp (List.mem_filter.mp hr).1
  exact hd f node found hfound

private theorem filter_violationsAt {d : Detector} (hd : d.ReportsOwn) (node : Nat) (id : String) :
    (violationsAt f severityOf node d).filter (·.code == id) =
      if d.issue.id == id then violationsAt f severityOf node d else [] := by
  split
  case isTrue h =>
    apply List.filter_eq_self.mpr
    intro v hv
    rw [code_of_mem_violationsAt hd hv]
    exact h
  case isFalse h =>
    apply List.filter_eq_nil_iff.mpr
    intro v hv
    rw [code_of_mem_violationsAt hd hv]
    exact h

private theorem violationsAt_congr {d : Detector} (h : severityOf d.issue.id = severityOf' d.issue.id)
    (node : Nat) : violationsAt f severityOf node d = violationsAt f severityOf' node d := by
  unfold violationsAt
  rw [h]

end Collector

namespace SourceFile

open Collector

variable {f : SourceFile} {severityOf severityOf' : String → Option Severity} {ds : List Detector}

/-- A run collects the violations of its visits: of every node in walk order, and at a node of every
detector in order. -/
theorem violations_run (f : SourceFile) (severityOf : String → Option Severity)
    (ds : List Detector) :
    (f.run severityOf ds).violations =
      (f.tree.walk f.tree.root).flatMap fun node =>
        (Detector.applicable ds (f.tree.kind node)).flatMap (violationsAt f severityOf node) := by
  refine violations_foldl ?_ _ Collector.empty
  intro c node
  exact violations_foldl (fun c d => violations_visit c node d) _ c

private theorem violations_run_congr
    (h : ∀ d ∈ ds, severityOf d.issue.id = severityOf' d.issue.id) :
    (f.run severityOf ds).violations = (f.run severityOf' ds).violations := by
  rw [violations_run, violations_run]
  apply List.flatMap_congr
  intro node _
  apply List.flatMap_congr
  intro d hd
  exact violationsAt_congr (h d (List.mem_filter.mp hd).1) node

private theorem flatMap_filter_eq {α β : Type} (p : α → Bool) (g : α → List β) (xs : List α) :
    (xs.flatMap fun x => if p x then g x else []) = (xs.filter p).flatMap g := by
  induction xs with
  | nil => rfl
  | cons x xs ih => cases h : p x <;> simp [h, ih]

/-- The violations with one code are those of the detectors of that code, run without the others. -/
theorem filter_violations_run (hown : ∀ d ∈ ds, d.ReportsOwn) (id : String) :
    (f.run severityOf ds).violations.filter (·.code == id) =
      (f.run severityOf (ds.filter (·.issue.id == id))).violations := by
  rw [violations_run, violations_run, List.filter_flatMap]
  apply List.flatMap_congr
  intro node _
  rw [List.filter_flatMap]
  calc (Detector.applicable ds (f.tree.kind node)).flatMap
        (fun d => (violationsAt f severityOf node d).filter (·.code == id))
      = (Detector.applicable ds (f.tree.kind node)).flatMap
          (fun d => if d.issue.id == id then violationsAt f severityOf node d else []) := by
        apply List.flatMap_congr
        intro d hd
        exact filter_violationsAt (hown d (List.mem_filter.mp hd).1) node id
    _ = ((Detector.applicable ds (f.tree.kind node)).filter (·.issue.id == id)).flatMap
          (violationsAt f severityOf node) := flatMap_filter_eq _ _ _
    _ = (Detector.applicable (ds.filter (·.issue.id == id)) (f.tree.kind node)).flatMap
          (violationsAt f severityOf node) := by
        rw [Detector.applicable, Detector.applicable, List.filter_comm]

end SourceFile

private theorem Detector.filter_issue_eq {ds : List Detector} (hids : (ds.map (·.issue.id)).Nodup)
    {d : Detector} (hd : d ∈ ds) : ds.filter (·.issue.id == d.issue.id) = [d] := by
  induction ds with
  | nil => cases hd
  | cons e ds ih =>
    obtain ⟨he, hids⟩ := List.nodup_cons.mp hids
    rcases List.mem_cons.mp hd with rfl | hd
    · have hrest : ds.filter (·.issue.id == d.issue.id) = [] := by
        apply List.filter_eq_nil_iff.mpr
        intro x hx heq
        exact he (List.mem_map.mpr ⟨x, hx, beq_iff_eq.mp heq⟩)
      simp [hrest]
    · have hne : e.issue.id ≠ d.issue.id := fun heq => he (List.mem_map.mpr ⟨d, hd, heq.symm⟩)
      simp [hne, ih hids hd]

namespace Settings

def entriesFor (s : Settings) (id : String) : List (String × RuleSettings) :=
  s.rules.filter fun r => Text.sameIgnoringCase r.1.toList id.toList

private theorem lookup_filter {rules : List (String × RuleSettings)} (id : String) :
    (rules.filter fun r => Text.sameIgnoringCase r.1.toList id.toList).lookup id =
      rules.lookup id := by
  induction rules with
  | nil => rfl
  | cons entry rules ih =>
    obtain ⟨key, r⟩ := entry
    by_cases h : id = key
    · subst h
      simp [Text.sameIgnoringCase]
    · have hne : (id == key) = false := beq_eq_false_iff_ne.mpr h
      rw [List.lookup_cons, hne, ← ih, List.filter_cons]
      split
      · rw [List.lookup_cons, hne]
      · rfl

private theorem rule?_congr {s s' : Settings} {id : String} (h : s.entriesFor id = s'.entriesFor id) :
    s.rule? id = s'.rule? id := by
  have hlookup : s.rules.lookup id = s'.rules.lookup id := by
    calc s.rules.lookup id = (s.entriesFor id).lookup id := (lookup_filter id).symm
      _ = (s'.entriesFor id).lookup id := by rw [h]
      _ = s'.rules.lookup id := lookup_filter id
  have hfind : s.rules.find? (fun r => Text.sameIgnoringCase r.1.toList id.toList) =
      s'.rules.find? (fun r => Text.sameIgnoringCase r.1.toList id.toList) := by
    rw [← List.head?_filter, ← List.head?_filter]
    exact congrArg List.head? h
  rw [rule?, rule?, hlookup, hfind]

private theorem isEnabled_congr {s s' : Settings} {id : String} (h : s.entriesFor id = s'.entriesFor id) :
    s.isEnabled id = s'.isEnabled id := by
  rw [isEnabled, isEnabled, rule?_congr h]

private theorem severity?_congr {s s' : Settings} {id : String} (h : s.entriesFor id = s'.entriesFor id) :
    s.severity? id = s'.severity? id := by
  rw [severity?, severity?, rule?_congr h]

end Settings

private theorem GlobalScopeUsage.detector_reportsOwn (policy : SupertypePolicy) :
    (detector policy).ReportsOwn := by
  intro f node found hfound
  change found ∈ findings policy f node at hfound
  unfold findings at hfound
  split at hfound
  · cases List.mem_singleton.mp hfound
    rfl
  · cases hfound

private theorem JobInBuilderUsage.detector_reportsOwn (policy : SupertypePolicy) :
    (detector policy).ReportsOwn := by
  intro f node found hfound
  change found ∈ findings policy f node at hfound
  unfold findings at hfound
  split at hfound
  · rw [List.mem_append, List.mem_append] at hfound
    rcases hfound with (hfound | hfound) | hfound
    · unfold nonCancellableFindings at hfound
      split at hfound
      · cases hfound
      · obtain ⟨n, _, rfl⟩ := List.mem_map.mp hfound
        rfl
    · unfold supervisorFindings at hfound
      split at hfound
      · split at hfound
        · obtain ⟨n, _, rfl⟩ := List.mem_map.mp hfound
          rfl
        · cases hfound
      · cases hfound
    · obtain ⟨n, _, rfl⟩ := List.mem_map.mp hfound
      rfl
  · cases hfound

private theorem Rules.configured_reportsOwn (s : Settings) : ∀ d ∈ Rules.configured s, d.ReportsOwn := by
  intro d hd
  obtain ⟨r, hr, rfl⟩ := List.mem_map.mp hd
  simp only [Rules.all, List.mem_cons, List.not_mem_nil, or_false] at hr
  rcases hr with rfl | rfl
  · exact GlobalScopeUsage.detector_reportsOwn _
  · exact JobInBuilderUsage.detector_reportsOwn _

private theorem Rules.configured_issues_distinct (s : Settings) :
    ((Rules.configured s).map (·.issue.id)).Nodup := by
  have hids : (Rules.configured s).map (·.issue.id) = ["GlobalScopeUsage", "JobInBuilderUsage"] := rfl
  rw [hids]
  decide

namespace Analysis

variable {a : Analysis} {path : Path} {source : String}

def ofRule (id : String) (answer : Except AnalysisError (List Violation)) :
    Except AnalysisError (List Violation) :=
  answer.map (·.filter (·.code == id))

private theorem ofRule_violationsIn (hids : (a.detectors.map (·.issue.id)).Nodup)
    (hown : ∀ d ∈ a.detectors, d.ReportsOwn) {d : Detector} (hd : d ∈ a.detectors) :
    ofRule d.issue.id (a.violationsIn path source) =
      { a with detectors := [d] }.violationsIn path source := by
  have henabled : a.enabledDetectors.filter (·.issue.id == d.issue.id) =
      { a with detectors := [d] }.enabledDetectors := by
    rw [enabledDetectors, List.filter_comm, Detector.filter_issue_eq hids hd, enabledDetectors]
  have hrun (f : SourceFile) :
      (f.run a.settings.severity? a.enabledDetectors).violations.filter (·.code == d.issue.id) =
        (f.run a.settings.severity? { a with detectors := [d] }.enabledDetectors).violations := by
    rw [SourceFile.filter_violations_run, henabled]
    intro e he
    exact hown e (List.mem_filter.mp he).1
  unfold violationsIn
  cases a.frontend.parse source with
  | error failure => rfl
  | ok parsed => exact congrArg Except.ok (hrun _)

private theorem violationsIn_congr {d : Detector} {s s' : Settings}
    (h : s.entriesFor d.issue.id = s'.entriesFor d.issue.id) :
    { a with detectors := [d], settings := s }.violationsIn path source =
      { a with detectors := [d], settings := s' }.violationsIn path source := by
  have henabled : { a with detectors := [d], settings := s }.enabledDetectors =
      { a with detectors := [d], settings := s' }.enabledDetectors := by
    simp [enabledDetectors, List.filter_cons, Settings.isEnabled_congr h]
  have hrun (f : SourceFile) (ds : List Detector) (hds : ∀ e ∈ ds, e = d) :
      (f.run s.severity? ds).violations = (f.run s'.severity? ds).violations := by
    apply SourceFile.violations_run_congr
    intro e he
    rw [hds e he]
    exact Settings.severity?_congr h
  unfold violationsIn
  cases a.frontend.parse source with
  | error failure => rfl
  | ok parsed =>
    rw [henabled]
    apply congrArg Except.ok (hrun _ _ _)
    intro e he
    exact List.mem_singleton.mp (List.mem_filter.mp he).1

/-- Rules do not interfere. In an analysis whose detectors have distinct issues and report these only,
the violations of a rule are those of its detector alone, in the same order. Hence they stay the same
under any other choice of detectors that still has this one, and under any settings with the same
entries for the rule. -/
theorem violations_of_rule_alone (a : Analysis) (hids : (a.detectors.map (·.issue.id)).Nodup)
    (hown : ∀ d ∈ a.detectors, d.ReportsOwn) {d : Detector} (hd : d ∈ a.detectors) (path : Path)
    (source : String) :
    ofRule d.issue.id (a.violationsIn path source) =
        { a with detectors := [d] }.violationsIn path source ∧
      ∀ (ds : List Detector) (s : Settings), (ds.map (·.issue.id)).Nodup →
        (∀ e ∈ ds, e.ReportsOwn) → d ∈ ds →
        s.entriesFor d.issue.id = a.settings.entriesFor d.issue.id →
        ofRule d.issue.id ({ a with detectors := ds, settings := s }.violationsIn path source) =
          ofRule d.issue.id (a.violationsIn path source) := by
  refine ⟨ofRule_violationsIn hids hown hd, ?_⟩
  intro ds s hids' hown' hd' hs
  calc ofRule d.issue.id ({ a with detectors := ds, settings := s }.violationsIn path source)
      = { a with detectors := [d], settings := s }.violationsIn path source :=
        ofRule_violationsIn (a := { a with detectors := ds, settings := s }) hids' hown' hd'
    _ = { a with detectors := [d] }.violationsIn path source := violationsIn_congr hs
    _ = ofRule d.issue.id (a.violationsIn path source) := (ofRule_violationsIn hids hown hd).symm

def jobInGlobalScope : String := "import kotlinx.coroutines.*\nval j = GlobalScope.launch(Job())\n"

def jobInGlobalScopeRows : Kotlin.Row :=
  .over "source_file" 0 62 [.over "import" 0 27 [],
    .over "property_declaration" 28 61 [
      .over "variable_declaration" 32 33 [.over "identifier" 32 33 []],
      .mk "=" false ⟨34, 35⟩ none [],
      .over "call_expression" 36 61 [
        .over "navigation_expression" 36 54 [.over "identifier" 36 47 [], .over "identifier" 48 54 []],
        .over "value_arguments" 54 61 [.over "value_argument" 55 60 [.over "call_expression" 55 60 [
          .over "identifier" 55 58 [], .over "value_arguments" 58 60 []]]]]]]

def bothRules : Analysis where
  root := ⟨"/app"⟩
  detectors := Rules.configured Settings.standard
  excludes := []
  settings := Settings.standard
  frontend := Kotlin.frontend fun _ => some jobInGlobalScopeRows
  dependencies := []
  failOnParseError := false

def jobsOnly : Settings :=
  { Settings.standard with rules := [("globalscopeusage", ⟨some false, none, []⟩)] }

theorem violations_of_rule_alone_bothRules :
    (bothRules.violationsIn ⟨"/app/Main.kt"⟩ jobInGlobalScope).map List.length = .ok 2 ∧
    ({ bothRules with settings := jobsOnly }.violationsIn ⟨"/app/Main.kt"⟩ jobInGlobalScope).map
      List.length = .ok 1 ∧
    ofRule "JobInBuilderUsage" (bothRules.violationsIn ⟨"/app/Main.kt"⟩ jobInGlobalScope) =
      { bothRules with detectors := [JobInBuilderUsage.detector .direct] }.violationsIn
        ⟨"/app/Main.kt"⟩ jobInGlobalScope ∧
    ofRule "JobInBuilderUsage"
        ({ bothRules with settings := jobsOnly }.violationsIn ⟨"/app/Main.kt"⟩ jobInGlobalScope) =
      ofRule "JobInBuilderUsage" (bothRules.violationsIn ⟨"/app/Main.kt"⟩ jobInGlobalScope) := by
  have hmem : JobInBuilderUsage.detector .direct ∈ Rules.configured Settings.standard :=
    List.mem_map.mpr ⟨⟨JobInBuilderUsage.issue, JobInBuilderUsage.detector⟩, by simp [Rules.all], rfl⟩
  have halone := violations_of_rule_alone bothRules (Rules.configured_issues_distinct _)
    (Rules.configured_reportsOwn _) hmem ⟨"/app/Main.kt"⟩ jobInGlobalScope
  refine ⟨by decide +kernel, by decide +kernel, halone.1, ?_⟩
  exact halone.2 bothRules.detectors jobsOnly (Rules.configured_issues_distinct _)
    (Rules.configured_reportsOwn _) hmem rfl

end Analysis

end CoroutineCheck

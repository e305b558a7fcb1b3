import CoroutineCheck.Proofs.Rules.Independence
import CoroutineCheck.Proofs.Rules.NestedBuilders
import CoroutineCheck.Proofs.Rules.ScopeReferences
/-!
# Annotated classes

An annotation of a class is looked for around the node that is visited, and a finding can be about a
node further down. So the annotation of a class covers what is found while a node inside the class is
visited. What it misses lies between: a nested builder or a call of `SupervisorJob` in a class that
stands itself inside the visited builder call.
-/
namespace CoroutineCheck

namespace Marker

private theorem mem_tailsAfter_iff {sub cs tail : List Char} :
    tail ∈ tailsAfter sub cs ↔ ∃ front, cs = front ++ sub ++ tail := by
  induction cs with
  | nil =>
    simp only [tailsAfter, Option.mem_toList, Text.after?_eq_some_iff]
    constructor
    · exact fun h => ⟨[], h⟩
    · rintro ⟨front, h⟩
      simp_all
  | cons c cs ih =>
    simp only [tailsAfter, List.mem_append, Option.mem_toList,
      Text.after?_eq_some_iff, ih]
    constructor
    · rintro (h | ⟨front, rfl⟩)
      · exact ⟨[], h⟩
      · exact ⟨c :: front, rfl⟩
    · rintro ⟨front, h⟩
      cases front with
      | nil => exact .inl h
      | cons x front =>
        cases h
        exact .inr ⟨front, rfl⟩

/-- Somewhere in a header an annotation begins, and one of its arguments names the issue. -/
def Names (header : List Char) (issue : String) : Prop :=
  ∃ marker ∈ markers, ∃ front tail, header = front ++ marker ++ tail ∧
    ∃ argument ∈ Text.pieces ',' (tail.takeWhile (· != ')')),
      coversIssue issue (Text.trimAll '"' (Text.trim argument)) = true

private theorem suppresses_iff {header : List Char} {issue : String} :
    suppresses header issue = true ↔ Names header issue := by
  have harguments {tail : List Char} :
      ((Text.pieces ',' (tail.takeWhile (· != ')'))).map fun a =>
        Text.trimAll '"' (Text.trim a)).any (coversIssue issue) = true ↔
      ∃ argument ∈ Text.pieces ',' (tail.takeWhile (· != ')')),
        coversIssue issue (Text.trimAll '"' (Text.trim argument)) = true := by
    rw [List.any_map, List.any_eq_true]
    rfl
  simp only [suppresses, List.any_eq_true, mem_tailsAfter_iff]
  constructor
  · rintro ⟨marker, hmarker, tail, ⟨front, hheader⟩, hcovers⟩
    exact ⟨marker, hmarker, front, tail, hheader, harguments.mp (List.any_eq_true.mpr hcovers)⟩
  · rintro ⟨marker, hmarker, front, tail, hheader, hcovers⟩
    exact ⟨marker, hmarker, tail, ⟨front, hheader⟩, List.any_eq_true.mp (harguments.mpr hcovers)⟩

end Marker

structure Tree.Annotated (t : Tree) (issue : String) (c : Nat) : Prop where
  kind : t.kind c = .classDecl
  names : Marker.Names (Marker.header (t.text c)) issue

private theorem Tree.Rooted.suppressed_iff {t : Tree} (hr : t.Rooted) {n : Nat} {issue : String} :
    t.suppressed n issue = true ↔
      (∃ c, t.Annotated issue c ∧ t.Under c n ∧ c ≠ n) ∨
        Marker.fileSuppresses t.source.toList issue = true := by
  simp only [suppressed, Bool.or_eq_true, List.any_eq_true, List.mem_filter, hr.mem_ancestors_iff,
    beq_iff_eq, Marker.suppresses_iff]
  apply or_congr_left
  constructor
  · rintro ⟨c, ⟨habove, hkind⟩, hnames⟩
    exact ⟨c, ⟨hkind, hnames⟩, habove⟩
  · rintro ⟨c, hc, habove⟩
    exact ⟨c, ⟨habove, hc.kind⟩, hc.names⟩

/-- Nothing suppresses a finding: no directive at its line, no annotation of the file and none of a
class around the visited node. -/
structure Collector.Keeps (f : SourceFile) (visited : Nat) (found : Finding) : Prop where
  not_allowed : (allowanceAt f.content (Text.position f.content found.span.start).line
    found.issue.id).isAllowed = false
  file : Marker.fileSuppresses f.content found.issue.id = false
  classes : ∀ c, f.tree.Annotated found.issue.id c → f.tree.Under c visited → c = visited

private theorem Collector.hides_eq_false_iff {f : SourceFile} (hr : f.tree.Rooted) {visited : Nat}
    {found : Finding} : hides f (visited, found) = false ↔ Keeps f visited found := by
  simp only [hides, isSuppressed, Bool.or_eq_false_iff, ← Bool.not_eq_true (f.tree.suppressed _ _),
    hr.suppressed_iff, not_or, not_exists, not_and, Classical.not_not]
  constructor
  · rintro ⟨hallowed, hclasses, hfile⟩
    exact ⟨hallowed, Bool.eq_false_iff.mpr hfile, hclasses⟩
  · intro h
    exact ⟨h.not_allowed, h.classes, Bool.eq_false_iff.mp h.file⟩

/-! ## What findings are about -/

namespace JobInBuilderUsage

inductive About (policy : SupertypePolicy) (f : SourceFile) (call : Nat) : Finding → Nat → Prop where
  | nestedBuilder {n : Nat} : n ∈ endangered f call →
      About policy f call (nonCancellableFinding f n) n
  | supervisor {receiver context n : Nat} : f.isBuilderCall call = true →
      receiverAndContext? f call = some (receiver, context) →
      usesOwnScope policy f call receiver = true →
      n ∈ f.nodesWithRole context [.call] .supervisorConstructor →
      About policy f call ⟨issue, f.tree.span n, jobMessage, operandRemoval? f context n⟩ n
  | argument {n : Nat} {type : Symbol} : f.isBuilderCall call = true → n ∈ f.argumentValues call →
      f.typeOf n = some type → type.isJobType = true →
      About policy f call ⟨issue, f.tree.span n, jobMessage, none⟩ n

variable {policy : SupertypePolicy} {f : SourceFile} {call n : Nat} {found : Finding}

private theorem mem_nonCancellableFindings_iff (hcall : f.isBuilderCall call = true) :
    found ∈ nonCancellableFindings f call ↔
      ∃ n ∈ endangered f call, nonCancellableFinding f n = found := by
  unfold nonCancellableFindings endangered
  cases (f.nodesWithRole call [.identifier, .navigation] .nonCancellable).isEmpty with
  | true => simp
  | false =>
    simp only [hcall, Bool.not_false, Bool.and_self, if_true, Bool.false_eq_true, if_false,
      List.mem_map]
    rfl

private theorem mem_supervisorFindings_iff : found ∈ supervisorFindings policy f call ↔
    ∃ receiver context, receiverAndContext? f call = some (receiver, context) ∧
      usesOwnScope policy f call receiver = true ∧
      ∃ n ∈ f.nodesWithRole context [.call] .supervisorConstructor,
        ⟨issue, f.tree.span n, jobMessage, operandRemoval? f context n⟩ = found := by
  unfold supervisorFindings
  cases hcontext : receiverAndContext? f call with
  | none => simp
  | some p =>
    obtain ⟨receiver, context⟩ := p
    cases hscope : usesOwnScope policy f call receiver with
    | false => simp [hscope]
    | true => simp [hscope]

private theorem mem_jobFindings_iff : found ∈ jobFindings f call ↔
    ∃ n ∈ f.argumentValues call, (∃ type, f.typeOf n = some type ∧ type.isJobType = true) ∧
      ⟨issue, f.tree.span n, jobMessage, none⟩ = found := by
  simp only [jobFindings, List.mem_map, List.mem_filter, and_assoc]
  refine exists_congr fun n => and_congr_right fun _ => and_congr_left fun _ => ?_
  cases f.typeOf n with
  | none => simp
  | some type => simp

private theorem mem_findings_iff :
    found ∈ findings policy f call ↔ ∃ n, About policy f call found n := by
  unfold findings
  cases hcall : f.isBuilderCall call with
  | false =>
    simp only [Bool.false_eq_true, if_false, List.not_mem_nil, false_iff, not_exists]
    intro n h
    cases h with
    | nestedBuilder hn => simp [endangered, hcall] at hn
    | supervisor hcall' => simp [hcall] at hcall'
    | argument hcall' => simp [hcall] at hcall'
  | true =>
    simp only [if_true, List.mem_append, mem_nonCancellableFindings_iff hcall,
      mem_supervisorFindings_iff, mem_jobFindings_iff]
    constructor
    · rintro ((⟨n, hn, rfl⟩ | ⟨receiver, context, hcontext, hscope, n, hn, rfl⟩) |
        ⟨n, hn, ⟨type, htype, hjob⟩, rfl⟩)
      · exact ⟨n, .nestedBuilder hn⟩
      · exact ⟨n, .supervisor hcall hcontext hscope hn⟩
      · exact ⟨n, .argument hcall hn htype hjob⟩
    · rintro ⟨n, h⟩
      cases h with
      | nestedBuilder hn => exact .inl (.inl ⟨n, hn, rfl⟩)
      | supervisor _ hcontext hscope hn => exact .inl (.inr ⟨_, _, hcontext, hscope, n, hn, rfl⟩)
      | argument _ hn htype hjob => exact .inr ⟨n, hn, ⟨_, htype, hjob⟩, rfl⟩

private theorem mem_nestedBuilders_of_endangered (h : n ∈ endangered f call) :
    f.isBuilderCall call = true ∧ n ∈ f.nestedBuilders call := by
  unfold endangered at h
  split at h
  case isTrue hcall => exact ⟨(Bool.and_eq_true_iff.mp hcall).1, h⟩
  case isFalse => cases h

namespace About

theorem isBuilderCall (h : About policy f call found n) : f.isBuilderCall call = true := by
  cases h with
  | nestedBuilder hn => exact (mem_nestedBuilders_of_endangered hn).1
  | supervisor hcall => exact hcall
  | argument hcall => exact hcall

private theorem issue_eq (h : About policy f call found n) : found.issue = issue := by
  cases h <;> rfl

private theorem span_eq (h : About policy f call found n) : found.span = f.tree.span n := by
  cases h <;> rfl

theorem under (h : About policy f call found n) : f.tree.Under call n := by
  cases h with
  | nestedBuilder hn =>
    exact SourceFile.under_of_mem_nestedBuilders (mem_nestedBuilders_of_endangered hn).2
  | supervisor _ hcontext _ hn =>
    exact (under_of_receiverAndContext? hcontext).trans (SourceFile.under_of_mem_nodesWithRole hn)
  | argument _ hn => exact SourceFile.under_of_mem_argumentValues hn

end About
end JobInBuilderUsage

namespace Tree

private theorem argumentValue_cases (t : Tree) (arg : Nat) :
    t.argumentValue arg = arg ∨ ∃ label, t.shape arg = .argument label (t.argumentValue arg) := by
  unfold argumentValue
  cases t.shape arg with
  | argument label value => exact .inr ⟨label, rfl⟩
  | _ => exact .inl rfl

end Tree

namespace SourceFile

variable {f : SourceFile}

private theorem under_of_class_above_argument (hr : f.tree.Rooted) {call n c : Nat}
    (hn : n ∈ f.argumentValues call) (hkind : f.tree.kind c = .classDecl)
    (hc : f.tree.Under c n) (hne : c ≠ n) : f.tree.Under c call := by
  unfold argumentValues at hn
  split at hn
  case h_2 => cases hn
  case h_1 receiver callee args lambda hshape =>
    obtain ⟨arg, harg, rfl⟩ := List.mem_map.mp hn
    have hparent : f.tree.parent? arg = some call :=
      hr.parent?_of_mem_parts (by simp [hshape, Shape.parts, harg])
    apply (hr.under_and_ne_iff hparent).mp
    rcases f.tree.argumentValue_cases arg with hself | ⟨label, hlabel⟩
    · exact hself ▸ ⟨hc, hne⟩
    · have hvalue : f.tree.parent? (f.tree.argumentValue arg) = some arg :=
        hr.parent?_of_mem_parts (by simp [hlabel, Shape.parts])
      refine ⟨(hr.under_and_ne_iff hvalue).mp ⟨hc, hne⟩, ?_⟩
      rintro rfl
      simp [Tree.kind, hlabel, Shape.kind] at hkind

private theorem mem_violations_run_iff {severityOf : String → Option Severity} {ds : List Detector}
    {v : Violation} : v ∈ (f.run severityOf ds).violations ↔
      ∃ d ∈ ds, ∃ visited found, f.tree.Under f.tree.root visited ∧
        d.kinds.contains (f.tree.kind visited) = true ∧ found ∈ d.findings f visited ∧
        Collector.hides f (visited, found) = false ∧
        Collector.violation f (severityOf d.issue.id) found = v := by
  simp only [violations_run, Collector.violationsAt, Detector.applicable, List.mem_flatMap,
    List.mem_filter, List.mem_map, Tree.mem_walk_iff]
  constructor
  · rintro ⟨visited, hvisited, d, ⟨hd, hkind⟩, _, ⟨⟨found, hfound, rfl⟩, hkept⟩, rfl⟩
    exact ⟨d, hd, visited, found, hvisited, hkind, hfound, by simpa using hkept, rfl⟩
  · rintro ⟨d, hd, visited, found, hvisited, hkind, hfound, hkept, rfl⟩
    exact ⟨visited, hvisited, d, ⟨hd, hkind⟩, _, ⟨⟨found, hfound, rfl⟩, by simpa using hkept⟩, rfl⟩

end SourceFile

namespace Rules

/-- A rule makes a finding about a node while another one, or the same, is visited. -/
inductive About (policy : SupertypePolicy) (f : SourceFile) (visited : Nat) :
    Finding → Nat → Prop where
  | reference : GlobalScopeUsage.isReference f visited = true →
      About policy f visited ⟨GlobalScopeUsage.issue, f.tree.span visited,
        GlobalScopeUsage.issue.title, (GlobalScopeUsage.replacement? policy f visited).map
          (GlobalScopeUsage.fix (f.tree.span visited))⟩ visited
  | job {found : Finding} {n : Nat} : JobInBuilderUsage.About policy f visited found n →
      About policy f visited found n

variable {policy : SupertypePolicy} {f : SourceFile} {visited n : Nat} {found : Finding} {r : Rule}

private theorem kind_of_isReference (h : GlobalScopeUsage.isReference f n = true) :
    f.tree.kind n = .identifier := by
  rw [Tree.kind, (GlobalScopeUsage.isReference_iff.mp h).1]
  rfl

private theorem mem_all_iff : r ∈ all ↔
    r = ⟨GlobalScopeUsage.issue, GlobalScopeUsage.detector⟩ ∨
      r = ⟨JobInBuilderUsage.issue, JobInBuilderUsage.detector⟩ := by
  simp [all]

private theorem issues_ne : GlobalScopeUsage.issue ≠ JobInBuilderUsage.issue := by decide +kernel

private theorem mem_findings_iff (hr : r ∈ all) : found ∈ (r.detector policy).findings f visited ↔
    found.issue = r.issue ∧ ∃ n, About policy f visited found n := by
  rcases mem_all_iff.mp hr with rfl | rfl
  · simp only [GlobalScopeUsage.detector, GlobalScopeUsage.findings]
    constructor
    · intro h
      split at h
      case isTrue href =>
        cases List.mem_singleton.mp h
        exact ⟨rfl, visited, .reference href⟩
      case isFalse => cases h
    · rintro ⟨hissue, n, h⟩
      cases h with
      | reference href => simp [href]
      | job h => exact absurd (hissue.symm.trans h.issue_eq) issues_ne
  · change found ∈ JobInBuilderUsage.findings policy f visited ↔ _
    rw [JobInBuilderUsage.mem_findings_iff]
    constructor
    · rintro ⟨n, h⟩
      exact ⟨h.issue_eq, n, .job h⟩
    · rintro ⟨hissue, n, h⟩
      cases h with
      | reference => exact absurd hissue issues_ne
      | job h => exact ⟨n, h⟩

private theorem looksAt_of_about (hr : r ∈ all) (hissue : found.issue = r.issue)
    (h : About policy f visited found n) :
    (r.detector policy).kinds.contains (f.tree.kind visited) = true := by
  cases h with
  | reference href =>
    rcases mem_all_iff.mp hr with rfl | rfl
    · rw [kind_of_isReference href]
      rfl
    · exact absurd hissue issues_ne
  | job h =>
    rcases mem_all_iff.mp hr with rfl | rfl
    · exact absurd (hissue.symm.trans h.issue_eq) issues_ne
    · rw [SourceFile.kind_of_isBuilderCall h.isBuilderCall]
      rfl

private theorem issue_detector (hr : r ∈ all) (policy : SupertypePolicy) :
    (r.detector policy).issue = r.issue := by
  rcases mem_all_iff.mp hr with rfl | rfl <;> rfl

namespace About

private theorem span_eq (h : About policy f visited found n) : found.span = f.tree.span n := by
  cases h with
  | reference => rfl
  | job h => exact h.span_eq

theorem under (h : About policy f visited found n) : f.tree.Under visited n := by
  cases h with
  | reference => exact .refl
  | job h => exact h.under

private theorem not_class (h : About policy f visited found n) : f.tree.kind visited ≠ .classDecl := by
  cases h with
  | reference href => simp [kind_of_isReference href]
  | job h => simp [SourceFile.kind_of_isBuilderCall h.isBuilderCall]

/-- A class around the node of a finding also stands around the visited one, except where the visited
call reports a nested builder or a supervisor. -/
private theorem above_or_below (hr : f.tree.Rooted) (h : About policy f visited found n) {c : Nat}
    (hkind : f.tree.kind c = .classDecl) (hc : f.tree.Under c n) (hne : c ≠ n) :
    f.tree.Under c visited ∨ f.tree.Under visited c ∧
      (n ∈ f.nestedBuilders visited ∨ f.role n = .supervisorConstructor) := by
  rcases hr.branching.under_or_under hc h.under with habove | hbelow
  · exact .inl habove
  · cases h with
    | reference => exact .inl hc
    | job h =>
      cases h with
      | nestedBuilder hn =>
        exact .inr ⟨hbelow, .inl (JobInBuilderUsage.mem_nestedBuilders_of_endangered hn).2⟩
      | supervisor _ _ _ hn =>
        have hrole := (List.mem_filter.mp hn).2
        rw [Bool.and_eq_true, beq_iff_eq] at hrole
        exact .inr ⟨hbelow, .inr hrole.2⟩
      | argument _ hn => exact .inl (SourceFile.under_of_class_above_argument hr hn hkind hc hne)

end About

/-- A rule records a finding about a node: it is made during the visit of a node of the tree, and
nothing suppresses it. -/
structure Recorded (f : SourceFile) (r : Rule) (policy : SupertypePolicy) (visited : Nat)
    (found : Finding) (n : Nat) : Prop where
  visits : f.tree.Under f.tree.root visited
  issue : found.issue = r.issue
  about : About policy f visited found n
  kept : Collector.Keeps f visited found

private theorem Recorded.mem_violations (hr : f.tree.Rooted) (hall : r ∈ all) {ds : List Detector}
    (hd : r.detector policy ∈ ds) (h : Recorded f r policy visited found n)
    (severityOf : String → Option Severity) :
    Collector.violation f (severityOf r.issue.id) found ∈ (f.run severityOf ds).violations := by
  apply SourceFile.mem_violations_run_iff.mpr
  refine ⟨_, hd, visited, found, h.visits, ?_, ?_, ?_, ?_⟩
  · exact looksAt_of_about hall h.issue h.about
  · exact (mem_findings_iff hall).mpr ⟨h.issue, n, h.about⟩
  · exact (Collector.hides_eq_false_iff hr).mpr h.kept
  · rw [issue_detector hall]

private theorem exists_recorded_of_mem (hr : f.tree.Rooted) {severityOf : String → Option Severity}
    {rs : List (Rule × SupertypePolicy)} (hrs : ∀ p ∈ rs, p.1 ∈ all) {v : Violation}
    (hv : v ∈ (f.run severityOf (rs.map fun p => p.1.detector p.2)).violations) :
    ∃ p ∈ rs, ∃ visited found n, Recorded f p.1 p.2 visited found n ∧
      Collector.violation f (severityOf p.1.issue.id) found = v := by
  obtain ⟨_, hd, visited, found, hvisited, _, hfound, hkept, rfl⟩ :=
    SourceFile.mem_violations_run_iff.mp hv
  obtain ⟨p, hp, rfl⟩ := List.mem_map.mp hd
  obtain ⟨hissue, n, habout⟩ := (mem_findings_iff (hrs p hp)).mp hfound
  refine ⟨p, hp, visited, found, n, ⟨hvisited, hissue, habout, ?_⟩, ?_⟩
  · exact (Collector.hides_eq_false_iff hr).mp hkept
  · rw [issue_detector (hrs p hp)]

private theorem Recorded.not_under_class (h : Recorded f r policy visited found n) {c : Nat}
    (hc : f.tree.Annotated found.issue.id c) : ¬ f.tree.Under c visited :=
  fun habove => h.about.not_class (h.kept.classes c hc habove ▸ hc.kind)

private theorem Recorded.class_between (hr : f.tree.Rooted) (h : Recorded f r policy visited found n)
    {c : Nat} (hc : f.tree.Annotated found.issue.id c) (hcn : f.tree.Under c n) (hne : c ≠ n) :
    f.tree.Under visited c ∧ c ≠ visited ∧
      (n ∈ f.nestedBuilders visited ∨ f.role n = .supervisorConstructor) := by
  have habove := h.not_under_class hc
  obtain ⟨hbelow, htarget⟩ := (h.about.above_or_below hr hc.kind hcn hne).resolve_left habove
  refine ⟨hbelow, ?_, htarget⟩
  rintro rfl
  exact habove .refl

private theorem Recorded.issue_ne_of_class_between (h : Recorded f r policy visited found n) {c : Nat}
    (hc : f.tree.Annotated found.issue.id c) (hcn : f.tree.Under c n) :
    found.issue ≠ GlobalScopeUsage.issue := by
  have habove := h.not_under_class hc
  intro hissue
  cases h.about with
  | reference => exact habove hcn
  | job h => exact issues_ne (hissue.symm.trans h.issue_eq)

/-- The violations of a run are the findings that a rule records, and whether a class annotation covers a
finding is decided at the visited node. A finding that is recorded although its node lies in an annotated
class is one about a nested builder or a supervisor, and the class stands between the visited call and
that node. It is never one about a reference to the global scope or about an argument. -/
theorem annotated_class_covers_visits (hr : f.tree.Rooted) (severityOf : String → Option Severity)
    {rs : List (Rule × SupertypePolicy)} (hrs : ∀ p ∈ rs, p.1 ∈ all) :
    (∀ v, v ∈ (f.run severityOf (rs.map fun p => p.1.detector p.2)).violations ↔
      ∃ p ∈ rs, ∃ visited found n, Recorded f p.1 p.2 visited found n ∧
        Collector.violation f (severityOf p.1.issue.id) found = v) ∧
    ∀ p ∈ rs, ∀ visited found n, Recorded f p.1 p.2 visited found n →
      found.span = f.tree.span n ∧ f.tree.Under visited n ∧
      ∀ c, f.tree.Annotated found.issue.id c → f.tree.Under c n → c ≠ n →
        f.tree.Under visited c ∧ c ≠ visited ∧
          (n ∈ f.nestedBuilders visited ∨ f.role n = .supervisorConstructor) ∧
          found.issue ≠ GlobalScopeUsage.issue ∧ n ∉ f.argumentValues visited := by
  constructor
  · intro v
    constructor
    · exact exists_recorded_of_mem hr hrs
    · rintro ⟨p, hp, visited, found, n, h, rfl⟩
      exact h.mem_violations hr (hrs p hp) (List.mem_map.mpr ⟨p, hp, rfl⟩) severityOf
  · intro p _ visited found n h
    refine ⟨h.about.span_eq, h.about.under, ?_⟩
    intro c hc hcn hne
    obtain ⟨hbelow, hvisited, htarget⟩ := h.class_between hr hc hcn hne
    refine ⟨hbelow, hvisited, htarget, h.issue_ne_of_class_between hc hcn, ?_⟩
    intro hargument
    exact h.not_under_class hc (SourceFile.under_of_class_above_argument hr hargument hc.kind hcn hne)

def annotatedLaunch : String :=
  "launch(NonCancellable) \x7b @Suppress(\"JobInBuilderUsage\") class A \x7b val j = launch \x7b \x7d" ++
    " \x7d \x7d"

def annotatedLaunchRows : Kotlin.Row :=
  .over "source_file" 0 88 [.over "call_expression" 0 88 [.over "identifier" 0 6 [],
    .over "value_arguments" 6 22 [.over "value_argument" 7 21 [.over "identifier" 7 21 []]],
    .over "annotated_lambda" 23 88 [.over "lambda_literal" 23 88 [.over "class_declaration" 25 86 [
      .over "modifiers" 25 55 [], .token "class" 56 61, .over "identifier" 62 63 [],
      .over "class_body" 64 86 [.over "property_declaration" 66 84 [.token "val" 66 69,
        .over "variable_declaration" 70 71 [.over "identifier" 70 71 []], .token "=" 72 73,
        .over "call_expression" 74 84 [.over "identifier" 74 80 [],
          .over "annotated_lambda" 81 84 [.over "lambda_literal" 81 84 []]]]]]]]]]

def annotatedLaunchFile : SourceFile :=
  ⟨⟨"annotated.kt"⟩, (Kotlin.layout annotatedLaunch annotatedLaunchRows).tree, launchResolver, []⟩

def annotatedLaunchFinding : Finding :=
  JobInBuilderUsage.nonCancellableFinding annotatedLaunchFile 5

private theorem annotatedLaunch_rooted : annotatedLaunchFile.tree.Rooted :=
  Kotlin.layout_rooted annotatedLaunch annotatedLaunchRows

private theorem annotatedLaunch_annotated :
    annotatedLaunchFile.tree.Annotated JobInBuilderUsage.issue.id 6 :=
  ⟨by decide +kernel, Marker.suppresses_iff.mp (by decide +kernel)⟩

private theorem annotatedLaunch_endangered :
    5 ∈ JobInBuilderUsage.endangered annotatedLaunchFile 8 := by decide +kernel

private theorem annotatedLaunch_recorded :
    Recorded annotatedLaunchFile ⟨JobInBuilderUsage.issue, JobInBuilderUsage.detector⟩ .direct 8
      annotatedLaunchFinding 5 where
  visits := annotatedLaunch_rooted.under_root (by decide +kernel)
  issue := rfl
  about := .job (.nestedBuilder annotatedLaunch_endangered)
  kept := (Collector.hides_eq_false_iff annotatedLaunch_rooted).mp (by decide +kernel)

theorem annotated_class_covers_visits_annotatedLaunch :
    annotatedLaunchFile.tree.Rooted ∧
    Recorded annotatedLaunchFile ⟨JobInBuilderUsage.issue, JobInBuilderUsage.detector⟩ .direct 8
      annotatedLaunchFinding 5 ∧
    Collector.violation annotatedLaunchFile none annotatedLaunchFinding ∈
      (annotatedLaunchFile.run (fun _ => none) [JobInBuilderUsage.detector .direct]).violations ∧
    annotatedLaunchFile.tree.Annotated JobInBuilderUsage.issue.id 6 ∧
    annotatedLaunchFile.tree.Under 8 6 ∧ 5 ∈ annotatedLaunchFile.nestedBuilders 8 := by
  have hr := annotatedLaunch_rooted
  have hclass : 5 ∈ annotatedLaunchFile.tree.children 6 := by decide +kernel
  have hnested := (JobInBuilderUsage.mem_nestedBuilders_of_endangered annotatedLaunch_endangered).2
  obtain ⟨hviolations, hbetween⟩ := @annotated_class_covers_visits annotatedLaunchFile hr
    (fun _ => none) [(⟨JobInBuilderUsage.issue, JobInBuilderUsage.detector⟩, .direct)]
    (by simp [all])
  obtain ⟨_, _, hclasses⟩ := hbetween _ List.mem_cons_self 8 _ 5 annotatedLaunch_recorded
  obtain ⟨hbelow, _⟩ := hclasses 6 annotatedLaunch_annotated (.single hclass) (by decide)
  refine ⟨hr, annotatedLaunch_recorded, ?_, annotatedLaunch_annotated, hbelow, hnested⟩
  exact (hviolations _).mpr ⟨_, List.mem_cons_self, 8, _, 5, annotatedLaunch_recorded, rfl⟩

/-- The annotation of a class inside the visited call does not cover the builder in it. -/
theorem annotated_class_missed_below_visit :
    annotatedLaunchFile.tree.Annotated JobInBuilderUsage.issue.id 6 ∧
    6 ∈ annotatedLaunchFile.tree.ancestors 5 ∧
    JobInBuilderUsage.About .direct annotatedLaunchFile 8 annotatedLaunchFinding 5 ∧
    Collector.violation annotatedLaunchFile none annotatedLaunchFinding ∈
      (annotatedLaunchFile.run (fun _ => none) [JobInBuilderUsage.detector .direct]).violations :=
  ⟨annotatedLaunch_annotated, by decide +kernel, .nestedBuilder annotatedLaunch_endangered,
    annotatedLaunch_recorded.mem_violations annotatedLaunch_rooted (by simp [all])
      List.mem_cons_self fun _ => none⟩

end Rules
end CoroutineCheck

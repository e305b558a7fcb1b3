import CoroutineCheck.Proofs.Rules.ScopeReferences
import CoroutineCheck.Rules.JobInBuilderUsage
import Mathlib.Data.List.Flatten
import Mathlib.Data.List.Forall2
/-!
# Supertype policies

The direct policy asks for an owner's class by name and kind among the supertypes of a class, the
transitive one for its name anywhere above. What the first accepts the second accepts too, so a change
from direct to transitive takes no report away. It can change which scope stands in for the global one,
since a `ViewModel` further up now comes before a `Fragment` among the direct supertypes.
-/
namespace CoroutineCheck

namespace Symbol

variable {s : Symbol} {o : LifecycleOwner}

private theorem right_of_ite {p : Prop} [Decidable p] {a b r : Role} (hne : a ≠ r)
    (h : (if p then a else b) = r) : b = r := by
  split at h
  · exact absurd h hne
  · exact h

private theorem qualifiedName_of_ownerClass (h : s.role = .ownerClass o) : s.qualifiedName = o.className := by
  unfold role at h
  -- The roles in front of the owners, those of the scopes and of the builders, are others.
  iterate 6 replace h := right_of_ite (by simp) h
  by_cases hviewModel : (s.qualifiedName == LifecycleOwner.viewModel.className && s.isType) = true
  · cases (if_pos hviewModel).symm.trans h
    exact beq_iff_eq.mp (Bool.and_eq_true_iff.mp hviewModel).1
  · replace h := (if_neg hviewModel).symm.trans h
    by_cases hfragment : (s.qualifiedName == LifecycleOwner.fragment.className && s.isType) = true
    · cases (if_pos hfragment).symm.trans h
      exact beq_iff_eq.mp (Bool.and_eq_true_iff.mp hfragment).1
    · replace h := (if_neg hfragment).symm.trans h
      -- So are those behind.
      iterate 2 replace h := right_of_ite (by simp) h
      cases h

theorem Owns.transitive (h : s.Owns .direct o) : s.Owns .transitive o :=
  ⟨s, .refl, qualifiedName_of_ownerClass h⟩

end Symbol

private theorem SourceFile.isOwner_transitive {f : SourceFile} {o : LifecycleOwner} {c : Nat}
    (h : f.isOwner .direct o c = true) : f.isOwner .transitive o c = true := by
  obtain ⟨s, hs, howns⟩ := isOwner_iff.mp h
  exact isOwner_iff.mpr ⟨s, hs, howns.transitive⟩

/-- A finding that says the same as another, and has a fix if that one has. -/
def Finding.Upholds (x y : Finding) : Prop :=
  { y with fix := x.fix } = x ∧ (x.fix.isSome = true → y.fix.isSome = true)

def Violation.Upholds (v w : Violation) : Prop :=
  { w with fix := v.fix } = v ∧ (v.fix.isSome = true → w.fix.isSome = true)

namespace Collector

variable {f : SourceFile}

private theorem hides_of_upholds {n : Nat} {x y : Finding} (h : x.Upholds y) :
    hides f (n, x) = hides f (n, y) := by
  rw [← h.1]
  rfl

private theorem violation_upholds {severity : Option Severity} {x y : Finding} (h : x.Upholds y) :
    (violation f severity x).Upholds (violation f severity y) := by
  refine ⟨?_, h.2⟩
  rw [← h.1]
  rfl

end Collector

namespace GlobalScopeUsage

variable {f : SourceFile}

private theorem replacement?_transitive {id : Nat} (h : (replacement? .direct f id).isSome = true) :
    (replacement? .transitive f id).isSome = true := by
  unfold replacement? at *
  cases hc : f.tree.enclosingClass? id with
  | none => simp [hc] at h
  | some c =>
    simp only [hc, bind, Option.bind_some, List.find?_isSome, Bool.and_eq_true] at h ⊢
    obtain ⟨o, ho, howner, hdepends⟩ := h
    exact ⟨o, ho, f.isOwner_transitive howner, hdepends⟩

private theorem reports_upheld (f : SourceFile) :
    List.Forall₂ (fun r s : Nat × Finding => r.1 = s.1 ∧ r.2.Upholds s.2)
      ((detector .direct).reports f) ((detector .transitive).reports f) := by
  rw [reports_eq, reports_eq, List.forall₂_map_left_iff, List.forall₂_map_right_iff, List.forall₂_same]
  intro n _
  refine ⟨rfl, rfl, ?_⟩
  rw [Option.isSome_map, Option.isSome_map]
  exact replacement?_transitive

private theorem violations_upheld (f : SourceFile) (severityOf : String → Option Severity) :
    List.Forall₂ Violation.Upholds (f.run severityOf [detector .direct]).violations
      (f.run severityOf [detector .transitive]).violations := by
  rw [(f.run_adds_reports severityOf (detector .direct)).violations,
    (f.run_adds_reports severityOf (detector .transitive)).violations]
  simp only [Collector.empty, List.nil_append, List.forall₂_map_left_iff, List.forall₂_map_right_iff]
  -- A finding is suppressed by its place and issue, which the policies agree on.
  have hkept : List.Forall₂ (fun r s : Nat × Finding => r.1 = s.1 ∧ r.2.Upholds s.2)
      (((detector .direct).reports f).filter (!Collector.hides f ·))
      (((detector .transitive).reports f).filter (!Collector.hides f ·)) := by
    refine List.rel_filter ?_ (reports_upheld f)
    rintro ⟨n, x⟩ ⟨m, y⟩ ⟨hnode, hup⟩
    cases hnode
    have hsame : Collector.hides f (n, x) = Collector.hides f (n, y) := Collector.hides_of_upholds hup
    simp only [hsame]
  exact hkept.imp fun r s h => Collector.violation_upholds h.2

end GlobalScopeUsage

namespace JobInBuilderUsage

variable {f : SourceFile}

private theorem usesOwnScope_transitive {call receiver : Nat}
    (h : usesOwnScope .direct f call receiver = true) :
    usesOwnScope .transitive f call receiver = true := by
  unfold usesOwnScope at *
  cases hrole : f.role receiver with
  | scopeAccessor o =>
    cases hc : f.tree.enclosingClass? call with
    | none => simp [hrole, hc] at h
    | some c =>
      simp only [hrole, hc] at h ⊢
      exact f.isOwner_transitive h
  | _ => simp [hrole] at h

/-- The check of supervisor jobs is the only one that asks for the policy. What it finds under the direct
one it finds under both, with the same fixes. -/
theorem supervisorFindings_direct (f : SourceFile) (call : Nat) :
    supervisorFindings .direct f call = [] ∨
      supervisorFindings .direct f call = supervisorFindings .transitive f call := by
  unfold supervisorFindings
  cases receiverAndContext? f call with
  | none => exact .inl rfl
  | some rc =>
    obtain ⟨receiver, context⟩ := rc
    by_cases hdirect : usesOwnScope .direct f call receiver = true
    · right
      simp only [hdirect, usesOwnScope_transitive hdirect]
    · left
      simp only [hdirect]
      rfl

private theorem supervisorFindings_sublist (f : SourceFile) (call : Nat) :
    (supervisorFindings .direct f call).Sublist (supervisorFindings .transitive f call) := by
  rcases supervisorFindings_direct f call with hnone | hsame
  · rw [hnone]
    exact List.nil_sublist _
  · rw [hsame]

private theorem findings_sublist (f : SourceFile) (id : Nat) :
    (findings .direct f id).Sublist (findings .transitive f id) := by
  unfold findings
  split
  · exact ((List.Sublist.refl _).append (supervisorFindings_sublist f id)).append (.refl _)
  · exact .refl _

private theorem reports_sublist (f : SourceFile) :
    ((detector .direct).reports f).Sublist ((detector .transitive).reports f) := by
  apply List.Sublist.flatMap_right
  intro n _
  change (if [Kind.call].contains (f.tree.kind n) then (findings .direct f n).map (n, ·) else []).Sublist
    (if [Kind.call].contains (f.tree.kind n) then (findings .transitive f n).map (n, ·) else [])
  split
  · exact (findings_sublist f n).map _
  · exact .refl _

private theorem violations_sublist (f : SourceFile) (severityOf : String → Option Severity) :
    (f.run severityOf [detector .direct]).violations.Sublist
      (f.run severityOf [detector .transitive]).violations := by
  rw [(f.run_adds_reports severityOf (detector .direct)).violations,
    (f.run_adds_reports severityOf (detector .transitive)).violations]
  exact (((reports_sublist f).filter _).map _).append_left _

end JobInBuilderUsage

/-- A change from the direct to the transitive policy only adds. Every reference to the global scope is
reported under both, by the same node with the same place and message, and keeps having a fix. The
reports about jobs under the direct policy are among those under the transitive one as they stand, fixes
included, and a call with reports about its supervisor job under both has the same ones. The same holds
for the violations of whole runs, after suppression. -/
theorem Rules.transitive_policy_only_adds (f : SourceFile) (severityOf : String → Option Severity) :
    List.Forall₂ (fun r s : Nat × Finding => r.1 = s.1 ∧ r.2.Upholds s.2)
        ((GlobalScopeUsage.detector .direct).reports f)
        ((GlobalScopeUsage.detector .transitive).reports f) ∧
      ((JobInBuilderUsage.detector .direct).reports f).Sublist
        ((JobInBuilderUsage.detector .transitive).reports f) ∧
      (∀ call, JobInBuilderUsage.supervisorFindings .direct f call = [] ∨
        JobInBuilderUsage.supervisorFindings .direct f call =
          JobInBuilderUsage.supervisorFindings .transitive f call) ∧
      List.Forall₂ Violation.Upholds
        (f.run severityOf [GlobalScopeUsage.detector .direct]).violations
        (f.run severityOf [GlobalScopeUsage.detector .transitive]).violations ∧
      (f.run severityOf [JobInBuilderUsage.detector .direct]).violations.Sublist
        (f.run severityOf [JobInBuilderUsage.detector .transitive]).violations :=
  ⟨GlobalScopeUsage.reports_upheld f, JobInBuilderUsage.reports_sublist f,
    JobInBuilderUsage.supervisorFindings_direct f, GlobalScopeUsage.violations_upheld f severityOf,
    JobInBuilderUsage.violations_sublist f severityOf⟩

/-- Both policies offer a scope in the file of a class that is a `Fragment` directly and a `ViewModel`
further up, but not the same one. -/
example :
    GlobalScopeUsage.replacement? .direct GlobalScopeUsage.ownerFile 0 = some .fragment ∧
      GlobalScopeUsage.replacement? .transitive GlobalScopeUsage.ownerFile 0 = some .viewModel := by
  decide +kernel

end CoroutineCheck

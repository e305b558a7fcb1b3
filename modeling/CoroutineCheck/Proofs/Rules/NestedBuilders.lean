import CoroutineCheck.Proofs.Rules.Bodies
import CoroutineCheck.Proofs.Rules.Runs
import CoroutineCheck.Proofs.Tree.Enclosing
import Mathlib.Data.List.Nodup
/-!
# Builders nested in a builder that refers to `NonCancellable`

Every builder call starts two searches of its own, one for the reference and one for the nested
builders, and neither enters another builder. Over a whole run a nested builder is reported by the
innermost builder around it and by no other, so it is reported at most once. It is reported exactly if
it stands in the trailing lambda of that builder, and if that builder comes to the reference.
-/
namespace CoroutineCheck

def Tree.TrailingLambdas (t : Tree) : Prop :=
  ∀ call body, (t.shape call).trailing? = some body → t.kind body = .lambda

theorem Tree.TrailingLambdas.of_lt {t : Tree}
    (h : ∀ call < t.size, ∀ body ∈ (t.shape call).trailing?, t.kind body = .lambda) :
    t.TrailingLambdas := by
  intro call body hbody
  by_cases hcall : call < t.size
  · exact h call hcall body hbody
  · rw [shape, node, Arena.node_of_size_le (Nat.not_lt.mp hcall)] at hbody
    cases hbody

namespace SourceFile

variable {f : SourceFile}

theorem kind_of_isBuilderCall {n : Nat} (h : f.isBuilderCall n = true) : f.tree.kind n = .call := by
  unfold isBuilderCall at h
  rw [Bool.and_eq_true, beq_iff_eq] at h
  exact h.1

private theorem lt_size_of_isBuilderCall {n : Nat} (h : f.isBuilderCall n = true) : n < f.tree.size := by
  refine Tree.lt_size_of_shape fun hother => ?_
  have hkind := kind_of_isBuilderCall h
  rw [Tree.kind, hother] at hkind
  cases hkind

private theorem not_isBuilderCall_of_lambda {n : Nat} (h : f.tree.kind n = .lambda) :
    f.isBuilderCall n = false := by
  unfold isBuilderCall
  rw [h]
  rfl

theorem mem_walkPruned_iff {prune : Nat → Bool} {start n : Nat} :
    n ∈ f.tree.walkPruned prune start ↔
      f.tree.Leads (fun id => id == start || !prune id) start n := by
  rw [Tree.walkPruned, Tree.mem_visit_iff]
  simp

private theorem mem_nestedBuilders_of_trailing {outer body n : Nat}
    (hbody : (f.tree.shape outer).trailing? = some body) :
    n ∈ f.nestedBuilders outer ↔ f.isBuilderCall n = true ∧ n ≠ body ∧
      f.tree.Leads (fun id => id == body || !f.isBuilderCall id) body n := by
  unfold nestedBuilders
  unfold Shape.trailing? at hbody
  split at hbody
  case h_1 hshape =>
    subst hbody
    simp only [hshape, List.mem_filter, mem_walkPruned_iff, Bool.and_eq_true, bne_iff_ne]
    exact and_comm.trans (and_congr_left' and_comm) |>.trans and_assoc
  case h_2 => cases hbody

private theorem nestedBuilders_eq_nil {outer : Nat} (h : (f.tree.shape outer).trailing? = none) :
    f.nestedBuilders outer = [] := by
  unfold nestedBuilders
  split
  case h_1 hshape =>
    rw [hshape] at h
    cases h
  case h_2 => rfl

/-- The nested builders of a builder are those in its trailing lambda that have it as the innermost
builder around them. -/
theorem mem_nestedBuilders_iff (hr : f.tree.Rooted) (hl : f.tree.TrailingLambdas) {outer n : Nat}
    (houter : f.isBuilderCall outer = true) :
    n ∈ f.nestedBuilders outer ↔ f.isBuilderCall n = true ∧
      f.tree.Innermost (fun d => f.isBuilderCall d = true) n outer ∧
      ∃ body, (f.tree.shape outer).trailing? = some body ∧ f.tree.Under body n := by
  cases hbody : (f.tree.shape outer).trailing? with
  | none => simp [nestedBuilders_eq_nil hbody]
  | some body =>
    have hplain : f.isBuilderCall body = false := not_isBuilderCall_of_lambda (hl outer body hbody)
    have hpart : body ∈ (f.tree.shape outer).parts := by
      unfold Shape.trailing? at hbody
      split at hbody
      case h_1 hshape => simp [hshape, hbody, Shape.parts]
      case h_2 => cases hbody
    have hchild : body ∈ f.tree.children outer := Arena.parts_subset hpart
    have hlt : body < outer := Tree.children_lt hchild
    have hparent : f.tree.parent? body = some outer := (hr.mem_children_iff outer body).mp hchild
    rw [mem_nestedBuilders_of_trailing hbody, hr.branching.leads_iff]
    simp only [Option.some.injEq, exists_eq_left']
    constructor
    · rintro ⟨hn, hne, hunder, hway⟩
      have hle := Tree.Under.le hunder
      refine ⟨hn, ⟨houter, hunder.head hchild, by omega, ?_⟩, hunder⟩
      intro d hd hdn hdne
      rcases hr.branching.under_or_under hdn hunder with hdb | hbd
      · have hne : d ≠ body := by
          rintro rfl
          rw [hplain] at hd
          cases hd
        exact (hr.under_and_ne_iff hparent).mp ⟨hdb, hne⟩
      · -- A builder between the body and the nested one would not have been entered.
        have henter := hway d hbd hdn hdne
        rw [Bool.or_eq_true, beq_iff_eq, Bool.not_eq_true', hd] at henter
        rcases henter with rfl | henter
        · rw [hplain] at hd
          cases hd
        · cases henter
    · rintro ⟨hn, hin, hunder⟩
      refine ⟨hn, ?_, hunder, ?_⟩
      · rintro rfl
        rw [hplain] at hn
        cases hn
      · intro x hbx hxn hxne
        rw [Bool.or_eq_true, Bool.not_eq_true']
        right
        cases hx : f.isBuilderCall x with
        | false => rfl
        | true =>
          have hle := Tree.Under.le (hin.below_others x hx hxn hxne)
          have hle' := Tree.Under.le hbx
          omega

private theorem nodup_nestedBuilders (hr : f.tree.Rooted) (outer : Nat) : (f.nestedBuilders outer).Nodup := by
  unfold nestedBuilders
  split
  · exact (hr.nodup_walkPruned _ _).filter _
  · exact .nil

end SourceFile

namespace JobInBuilderUsage

variable {f : SourceFile}

/-- A builder call comes to a reference to `NonCancellable` without entering another builder. -/
def RefersToNonCancellable (f : SourceFile) (call : Nat) : Prop :=
  ∃ n, f.tree.Leads (fun id => id == call || !f.isBuilderCall id) call n ∧
    (f.tree.kind n = .identifier ∨ f.tree.kind n = .navigation) ∧ f.role n = .nonCancellable

def nonCancellableFinding (f : SourceFile) (n : Nat) : Finding :=
  ⟨issue, f.tree.span n, nonCancellableMessage, contextSwitch? f n⟩

def endangered (f : SourceFile) (call : Nat) : List Nat :=
  if f.isBuilderCall call &&
    !(f.nodesWithRole call [.identifier, .navigation] .nonCancellable).isEmpty then
    f.nestedBuilders call
  else []

private theorem refersToNonCancellable_iff {call : Nat} : RefersToNonCancellable f call ↔
    (f.nodesWithRole call [.identifier, .navigation] .nonCancellable).isEmpty = false := by
  rw [List.isEmpty_eq_false_iff_exists_mem]
  unfold RefersToNonCancellable SourceFile.nodesWithRole
  simp only [List.mem_filter, SourceFile.mem_walkPruned_iff, Bool.and_eq_true,
    List.contains_iff_mem, List.mem_cons, List.not_mem_nil, or_false, beq_iff_eq]

private theorem filter_findings (policy : SupertypePolicy) (call : Nat) :
    (findings policy f call).filter (·.message == nonCancellableMessage) =
      (endangered f call).map (nonCancellableFinding f) := by
  have hother : (jobMessage == nonCancellableMessage) = false := by decide +kernel
  have hsupervisor : ∀ d ∈ supervisorFindings policy f call, d.message = jobMessage := by
    intro d hd
    unfold supervisorFindings at hd
    split at hd
    · split at hd
      · obtain ⟨s, _, rfl⟩ := List.mem_map.mp hd
        rfl
      · cases hd
    · cases hd
  have hjob : ∀ d ∈ jobFindings f call, d.message = jobMessage := by
    intro d hd
    obtain ⟨v, _, rfl⟩ := List.mem_map.mp hd
    rfl
  have hnone {ds : List Finding} (h : ∀ d ∈ ds, d.message = jobMessage) :
      ds.filter (·.message == nonCancellableMessage) = [] := by
    rw [List.filter_eq_nil_iff]
    intro d hd
    rw [h d hd, hother]
    exact Bool.false_ne_true
  unfold findings endangered
  cases f.isBuilderCall call with
  | false => rfl
  | true =>
    rw [if_pos rfl, List.filter_append, List.filter_append, hnone hsupervisor, hnone hjob,
      List.append_nil, List.append_nil, Bool.true_and]
    unfold nonCancellableFindings
    cases (f.nodesWithRole call [.identifier, .navigation] .nonCancellable).isEmpty with
    | true => rfl
    | false =>
      rw [if_neg Bool.false_ne_true, Bool.not_false, if_pos rfl, List.filter_map]
      refine congrArg (List.map _) (List.filter_eq_self.mpr fun n _ => ?_)
      exact beq_self_eq_true nonCancellableMessage

private theorem filter_reports (policy : SupertypePolicy) :
    ((detector policy).reports f).filter (·.2.message == nonCancellableMessage) =
      ((f.tree.walk f.tree.root).flatMap fun call => (endangered f call).map (call, ·)).map
        fun p => (p.1, nonCancellableFinding f p.2) := by
  unfold Detector.reports
  rw [List.filter_flatMap, List.map_flatMap]
  refine congrArg (List.flatMap · _) (funext fun call => ?_)
  have hvisit : ((findings policy f call).map (call, ·)).filter
        (·.2.message == nonCancellableMessage) =
      ((endangered f call).map (call, ·)).map fun p => (p.1, nonCancellableFinding f p.2) := by
    rw [List.filter_map, List.map_map]
    change ((findings policy f call).filter (·.message == nonCancellableMessage)).map (call, ·) = _
    rw [filter_findings, List.map_map]
    rfl
  split
  case isTrue => exact hvisit
  case isFalse hkind =>
    -- A node that is no call is not looked at, and would not report anything.
    have hcall : f.isBuilderCall call = false := by
      cases hb : f.isBuilderCall call with
      | false => rfl
      | true =>
        rw [SourceFile.kind_of_isBuilderCall hb] at hkind
        exact absurd rfl hkind
    simp [endangered, hcall]

private theorem mem_endangered_iff (hr : f.tree.Rooted) (hl : f.tree.TrailingLambdas) {outer n : Nat} :
    n ∈ endangered f outer ↔ f.isBuilderCall n = true ∧
      f.tree.Innermost (fun d => f.isBuilderCall d = true) n outer ∧
      (∃ body, (f.tree.shape outer).trailing? = some body ∧ f.tree.Under body n) ∧
      RefersToNonCancellable f outer := by
  unfold endangered
  rw [refersToNonCancellable_iff]
  cases hb : f.isBuilderCall outer with
  | false =>
    simp only [Bool.false_and, Bool.false_eq_true, if_false, List.not_mem_nil, false_iff]
    rintro ⟨_, hin, _⟩
    have hholds := hin.holds
    rw [hb] at hholds
    cases hholds
  | true =>
    cases (f.nodesWithRole outer [.identifier, .navigation] .nonCancellable).isEmpty with
    | true => simp
    | false => simpa using SourceFile.mem_nestedBuilders_iff hr hl hb

private theorem nodup_endangered (hr : f.tree.Rooted) (outer : Nat) : (endangered f outer).Nodup := by
  unfold endangered
  split
  · exact SourceFile.nodup_nestedBuilders hr outer
  · exact .nil

/-- A run collects the reports, and those about `NonCancellable` are one for each nested builder that
stands in the trailing lambda of the innermost builder around it, where that builder comes to a
reference to `NonCancellable` without entering another; they are made while that builder is visited. -/
theorem nonCancellable_reported_once (hr : f.tree.Rooted) (hl : f.tree.TrailingLambdas)
    (policy : SupertypePolicy) :
    (∀ severityOf, Collector.Adds f (severityOf issue.id) .empty (f.run severityOf [detector policy])
      ((detector policy).reports f)) ∧
    ∃ targets : List (Nat × Nat),
      ((detector policy).reports f).filter (·.2.message == nonCancellableMessage) =
        targets.map (fun p => (p.1, ⟨issue, f.tree.span p.2, nonCancellableMessage,
          contextSwitch? f p.2⟩)) ∧
      (targets.map Prod.snd).Nodup ∧
      ∀ outer n, (outer, n) ∈ targets ↔ f.isBuilderCall n = true ∧
        f.tree.Innermost (fun d => f.isBuilderCall d = true) n outer ∧
        (∃ body, (f.tree.shape outer).trailing? = some body ∧ f.tree.Under body n) ∧
        RefersToNonCancellable f outer := by
  refine ⟨fun severityOf => f.run_adds_reports severityOf (detector policy), _, filter_reports policy,
    ?_, fun outer n => ?_⟩
  · rw [List.map_flatMap]
    simp only [List.map_map, Function.comp_def, List.map_id']
    refine List.nodup_flatMap.mpr ⟨fun outer _ => nodup_endangered hr outer, ?_⟩
    refine (hr.nodup_walkPruned _ _).imp fun {x y} hxy n hx hy => hxy ?_
    -- Both would be the innermost builder around `n`.
    exact ((mem_endangered_iff hr hl).mp hx).2.1.unique ((mem_endangered_iff hr hl).mp hy).2.1
  · rw [← mem_endangered_iff hr hl, List.mem_flatMap]
    constructor
    · rintro ⟨call, _, hmem⟩
      obtain ⟨m, hm, heq⟩ := List.mem_map.mp hmem
      cases heq
      exact hm
    · intro hmem
      have hin := ((mem_endangered_iff hr hl).mp hmem).2.1
      have hsize := SourceFile.lt_size_of_isBuilderCall hin.holds
      exact ⟨outer, Tree.mem_walk_iff.mpr (hr.under_root hsize), List.mem_map_of_mem hmem⟩

theorem nonCancellable_reported_once_nestedLaunch :
    Rules.nestedLaunchFile.tree.Rooted ∧ Rules.nestedLaunchFile.tree.TrailingLambdas ∧
    ∃ targets : List (Nat × Nat),
      ((detector .direct).reports Rules.nestedLaunchFile).filter
          (·.2.message == nonCancellableMessage) =
        targets.map (fun p => (p.1, ⟨issue, Rules.nestedLaunchFile.tree.span p.2,
          nonCancellableMessage, contextSwitch? Rules.nestedLaunchFile p.2⟩)) ∧
      (targets.map Prod.snd).Nodup ∧ (10, 8) ∈ targets := by
  have hrooted : Rules.nestedLaunchFile.tree.Rooted :=
    Kotlin.layout_rooted Rules.nestedLaunch Rules.nestedLaunchRows
  have hlambdas : Rules.nestedLaunchFile.tree.TrailingLambdas := .of_lt (by decide +kernel)
  have houter : (Rules.nestedLaunchFile.tree.ancestors 8).find?
      Rules.nestedLaunchFile.isBuilderCall = some 10 := by decide +kernel
  have hbody : (Rules.nestedLaunchFile.tree.shape 10).trailing? = some 9 := by decide +kernel
  have hchild : 8 ∈ Rules.nestedLaunchFile.tree.children 9 := by decide +kernel
  obtain ⟨_, targets, hreports, honce, hmem⟩ := nonCancellable_reported_once hrooted hlambdas .direct
  refine ⟨hrooted, hlambdas, targets, hreports, honce, (hmem 10 8).mpr ⟨by decide +kernel, ?_, ?_, ?_⟩⟩
  · exact hrooted.find?_ancestors_iff.mp houter
  · exact ⟨9, hbody, .single hchild⟩
  · exact refersToNonCancellable_iff.mpr (by decide +kernel)

end JobInBuilderUsage
end CoroutineCheck

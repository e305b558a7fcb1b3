import CoroutineCheck.Proofs.Kotlin.Nesting
import CoroutineCheck.Proofs.Rules.Runs
import CoroutineCheck.Proofs.Symbol.Subtypes
import CoroutineCheck.Proofs.Text.Search
import CoroutineCheck.Proofs.Tree.Enclosing
import CoroutineCheck.Rules.GlobalScopeUsage
/-!
# Reports of references to the global scope

Over a whole run every reference to the global scope is reported once, in pre-order. What stands in for
it is the scope of the innermost class around the reference, if that class has one and a dependency
brings it; the scope of a `ViewModel` comes before that of a `Fragment`.
-/
namespace CoroutineCheck

/-- A supertype that makes a class an owner: the owner's class itself, or with the transitive policy a
type below it. -/
def Symbol.Owns (policy : SupertypePolicy) (o : LifecycleOwner) (s : Symbol) : Prop :=
  match policy with
  | .direct => s.role = .ownerClass o
  | .transitive => ∃ u, s.Extends u ∧ u.qualifiedName = o.className

private theorem Symbol.makesOwner_iff {policy : SupertypePolicy} {o : LifecycleOwner} {s : Symbol} :
    s.makesOwner policy o = true ↔ s.Owns policy o := by
  cases policy with
  | direct => exact beq_iff_eq
  | transitive => exact isSubtypeOf_iff o.className s

theorem SourceFile.isOwner_iff {f : SourceFile} {policy : SupertypePolicy} {o : LifecycleOwner}
    {c : Nat} : f.isOwner policy o c = true ↔ ∃ s ∈ f.supertypes c, s.Owns policy o := by
  unfold isOwner
  rw [List.any_eq_true]
  simp only [Symbol.makesOwner_iff]

private theorem SourceFile.dependsOn_iff {f : SourceFile} {artifact : String} :
    f.dependsOn artifact = true ↔
      ∃ d ∈ f.dependencies, artifact.toList <:+: d.coordinate.toList := by
  unfold dependsOn Dependency.mentions
  rw [List.any_eq_true]
  simp only [Text.contains_iff]

namespace GlobalScopeUsage

variable {f : SourceFile} {policy : SupertypePolicy} {id : Nat}

/-- The innermost class around a node is an owner, and some dependency brings the owner's scope. -/
def Offers (policy : SupertypePolicy) (f : SourceFile) (id : Nat) (o : LifecycleOwner) : Prop :=
  ∃ c, f.tree.Innermost (fun d => f.tree.kind d = .classDecl) id c ∧
    (∃ s ∈ f.supertypes c, s.Owns policy o) ∧
    ∃ d ∈ f.dependencies, o.artifact.toList <:+: d.coordinate.toList

private theorem offers_iff (hr : f.tree.Rooted) {o : LifecycleOwner} : Offers policy f id o ↔
    ∃ c, f.tree.enclosingClass? id = some c ∧
      (f.isOwner policy o c && f.dependsOn o.artifact) = true := by
  unfold Offers
  simp only [hr.enclosingClass?_iff, Bool.and_eq_true, SourceFile.isOwner_iff,
    SourceFile.dependsOn_iff]

private theorem replacement?_spec (hr : f.tree.Rooted) (policy : SupertypePolicy) (id : Nat) :
    (Offers policy f id .viewModel → replacement? policy f id = some .viewModel) ∧
    (¬ Offers policy f id .viewModel → Offers policy f id .fragment →
      replacement? policy f id = some .fragment) ∧
    (¬ Offers policy f id .viewModel → ¬ Offers policy f id .fragment →
      replacement? policy f id = none) := by
  simp only [offers_iff hr, replacement?, LifecycleOwner.all]
  cases f.tree.enclosingClass? id with
  | none => simp
  | some c =>
    simp only [Option.some.injEq, exists_eq_left', bind, Option.bind_some]
    cases hv : f.isOwner policy .viewModel c && f.dependsOn LifecycleOwner.viewModel.artifact with
    | true => simp [hv]
    | false =>
      cases hf : f.isOwner policy .fragment c && f.dependsOn LifecycleOwner.fragment.artifact with
      | true => simp [hv, hf]
      | false => simp [hv, hf]

theorem isReference_iff : isReference f id = true ↔
    f.tree.shape id = .identifier "GlobalScope" ∧
      (f.resolve id = none ∨ ∃ s, f.resolve id = some s ∧ s.role = .globalScope) := by
  have hname : f.tree.identifier? id = some "GlobalScope" ↔
      f.tree.shape id = .identifier "GlobalScope" := by
    unfold Tree.identifier?
    split
    case h_1 hshape => simp [hshape]
    case h_2 hother =>
      simp only [reduceCtorEq, false_iff]
      exact hother "GlobalScope"
  unfold isReference
  rw [Bool.and_eq_true, beq_iff_eq, hname]
  cases f.resolve id with
  | none => simp
  | some s => simp

theorem reports_eq (policy : SupertypePolicy) (f : SourceFile) :
    (detector policy).reports f =
      ((f.tree.walk f.tree.root).filter (isReference f)).map fun n =>
        (n, ⟨issue, f.tree.span n, issue.title,
          (replacement? policy f n).map (fix (f.tree.span n))⟩) := by
  unfold Detector.reports
  induction f.tree.walk f.tree.root with
  | nil => rfl
  | cons n nodes ih =>
    rw [List.flatMap_cons, ih, List.filter_cons]
    simp only [detector, findings]
    cases href : isReference f n with
    | false => simp
    | true =>
      -- A reference is an identifier, so it is looked at.
      have hkind : f.tree.kind n = .identifier := by
        rw [Tree.kind, (isReference_iff.mp href).1]
        rfl
      simp [hkind]

/-- A run collects the reports, and there is one for each identifier `GlobalScope` that is unresolved or
resolves to the library's object, at its span and in pre-order. It has a fix exactly if the innermost
class around it offers a scope, and the fix takes that of a `ViewModel` where there are two. -/
theorem references_reported_in_order (hr : f.tree.Rooted) (policy : SupertypePolicy) :
    (∀ severityOf, Collector.Adds f (severityOf issue.id) .empty (f.run severityOf [detector policy])
      ((detector policy).reports f)) ∧
    ∃ (refs : List Nat) (fixOf : Nat → Option Fix),
      (detector policy).reports f =
        refs.map (fun n => (n, ⟨issue, f.tree.span n, issue.title, fixOf n⟩)) ∧
      refs.Nodup ∧ refs.Sublist (f.tree.walk f.tree.root) ∧
      (∀ n, f.tree.walk n = n :: (f.tree.children n).flatMap f.tree.walk) ∧
      (∀ n, n ∈ refs ↔ f.tree.shape n = .identifier "GlobalScope" ∧
        (f.resolve n = none ∨ ∃ s, f.resolve n = some s ∧ s.role = .globalScope)) ∧
      ∀ n ∈ refs,
        ((fixOf n).isSome = true ↔ ∃ o, Offers policy f n o) ∧
        ∀ fix ∈ fixOf n,
          (Offers policy f n .viewModel → fix = Fix.replace "Replace GlobalScope by viewModelScope"
            (f.tree.span n) "viewModelScope") ∧
          (¬ Offers policy f n .viewModel → fix =
            Fix.replace "Replace GlobalScope by lifecycleScope" (f.tree.span n) "lifecycleScope") := by
  refine ⟨fun severityOf => f.run_adds_reports severityOf (detector policy), _, _, reports_eq policy f, ?_,
    List.filter_sublist, f.tree.walk_eq, ?_, ?_⟩
  · exact (hr.nodup_walkPruned _ _).filter _
  · intro n
    rw [List.mem_filter, isReference_iff, Tree.mem_walk_iff]
    refine ⟨And.right, fun h => ⟨hr.under_root (Nat.lt_of_not_le fun hle => ?_), h⟩⟩
    have hshape := h.1
    rw [Tree.shape, Tree.node, Arena.node_of_size_le hle] at hshape
    cases hshape
  · intro n _
    obtain ⟨hviewModel, hfragment, hnone⟩ := replacement?_spec hr policy n
    have haccessor : LifecycleOwner.viewModel.accessor = "viewModelScope" ∧
        LifecycleOwner.fragment.accessor = "lifecycleScope" := by decide +kernel
    by_cases hv : Offers policy f n .viewModel
    · rw [hviewModel hv]
      refine ⟨⟨fun _ => ⟨_, hv⟩, fun _ => rfl⟩, fun fix hfix => ⟨fun _ => ?_, absurd hv⟩⟩
      cases hfix
      rw [GlobalScopeUsage.fix, haccessor.1]
      rfl
    · by_cases hf : Offers policy f n .fragment
      · rw [hfragment hv hf]
        refine ⟨⟨fun _ => ⟨_, hf⟩, fun _ => rfl⟩, fun fix hfix => ⟨fun h => absurd h hv, fun _ => ?_⟩⟩
        cases hfix
        rw [GlobalScopeUsage.fix, haccessor.2]
        rfl
      · rw [hnone hv hf]
        have hoffers : ¬ ∃ o, Offers policy f n o := by
          rintro ⟨o, ho⟩
          cases o with
          | viewModel => exact hv ho
          | fragment => exact hf ho
        exact ⟨by simp [hoffers], by simp⟩

def ownerClass : String := "class A \x7b val x = GlobalScope \x7d"

def ownerClassRows : Kotlin.Row :=
  .over "source_file" 0 31 [.over "class_declaration" 0 31 [.token "class" 0 5,
    .over "identifier" 6 7 [],
    .over "class_body" 8 31 [.over "property_declaration" 10 29 [.token "val" 10 13,
      .over "variable_declaration" 14 15 [.over "identifier" 14 15 []], .token "=" 16 17,
      .over "identifier" 18 29 []]]]]

def ownerResolver : Resolver where
  resolve t id := match t.shape id with
    | .classDecl _ => some (.named "app.A" .classType [
        .named LifecycleOwner.fragment.className .classType [],
        .named "app.Base" .classType [.named LifecycleOwner.viewModel.className .classType []]])
    | _ => none
  typeOf _ _ := none

def ownerFile : SourceFile :=
  ⟨⟨"owner.kt"⟩, (Kotlin.layout ownerClass ownerClassRows).tree, ownerResolver,
    [⟨"androidx.lifecycle:lifecycle-viewmodel-ktx:2.6.0"⟩, ⟨LifecycleOwner.fragment.artifact⟩]⟩

theorem references_reported_in_order_ownerFile :
    ownerFile.tree.Rooted ∧ ∃ (refs : List Nat) (fixOf : Nat → Option Fix),
      (detector .transitive).reports ownerFile =
        refs.map (fun n => (n, ⟨issue, ownerFile.tree.span n, issue.title, fixOf n⟩)) ∧
      0 ∈ refs ∧ Offers .transitive ownerFile 0 .viewModel ∧
      Offers .transitive ownerFile 0 .fragment ∧
      fixOf 0 = some (Fix.replace "Replace GlobalScope by viewModelScope" ⟨18, 29⟩
        "viewModelScope") := by
  have hrooted : ownerFile.tree.Rooted := Kotlin.layout_rooted ownerClass ownerClassRows
  have hviewModel : Offers .transitive ownerFile 0 .viewModel :=
    (offers_iff hrooted).mpr ⟨1, by decide +kernel, by decide +kernel⟩
  have hfragment : Offers .transitive ownerFile 0 .fragment :=
    (offers_iff hrooted).mpr ⟨1, by decide +kernel, by decide +kernel⟩
  have href : isReference ownerFile 0 = true := by decide +kernel
  have hspan : ownerFile.tree.span 0 = ⟨18, 29⟩ := by decide +kernel
  obtain ⟨_, refs, fixOf, hreports, _, _, _, hrefs, hfix⟩ :=
    references_reported_in_order hrooted .transitive
  have hmem : 0 ∈ refs := (hrefs 0).mpr (isReference_iff.mp href)
  obtain ⟨fix, hsome⟩ := Option.isSome_iff_exists.mp ((hfix 0 hmem).1.mpr ⟨_, hviewModel⟩)
  refine ⟨hrooted, refs, fixOf, hreports, hmem, hviewModel, hfragment, ?_⟩
  rw [hsome, ((hfix 0 hmem).2 fix hsome).1 hviewModel, hspan]

end GlobalScopeUsage
end CoroutineCheck

import CoroutineCheck.Kotlin.Frontend
import CoroutineCheck.Proofs.Kotlin.References
import CoroutineCheck.Proofs.Rules.Bodies
import CoroutineCheck.Proofs.Rules.ScopeReferences
/-!
# Qualified references to the global scope

A reference is reported at its last name, and the fix exchanges that name alone. A name that selects
from a path is resolved through the whole path, but the path itself stays in the source, in front of
the scope that the fix puts in.
-/
namespace CoroutineCheck

namespace Kotlin

private theorem layout_text_of_identifier {source : String} {root : Row} {id : Nat} {name : String}
    (h : (layout source root).tree.shape id = .identifier name) :
    (layout source root).tree.text id = name.toList := by
  have hsource : (layout source root).tree.source = source := rfl
  have hrooted := layout_rooted source root
  have hvisits := visits_identifier_iff_inView source root ⟨name, (layout source root).tree.span id⟩
  generalize (layout source root).tree = t at h hsource hrooted hvisits ⊢
  have hlt : id < t.size := Tree.lt_size_of_shape (by simp [h])
  obtain ⟨r, _, _, hword⟩ :=
    hvisits.mp ⟨id, Tree.mem_walk_iff.mpr (hrooted.under_root hlt), h, rfl⟩
  obtain ⟨hname, hspan⟩ := Word.mk.inj hword
  rw [Tree.text, hsource, ← hspan, ← hname, String.toList_ofList]
  rfl

private theorem resolve?_selector {d : Declarations} {t : Tree} (hr : t.Rooted) {nav r n : Nat}
    {name : String} (hnav : t.shape nav = .navigation r n) (hn : t.shape n = .identifier name) :
    d.resolve? t n = d.resolve? t nav := by
  have hparent : t.parent? n = some nav := hr.parent?_of_mem_parts (by simp [hnav, Shape.parts])
  simp only [Declarations.resolve?, hn, hparent, Option.map_some, hnav, BEq.rfl, ↓reduceIte]

end Kotlin

namespace GlobalScopeUsage

variable {f : SourceFile} {policy : SupertypePolicy} {n : Nat}

private theorem fix_of_finding {d : Finding} {fix : Fix} (hd : d ∈ findings policy f n)
    (hfix : d.fix = some fix) : f.tree.shape n = .identifier "GlobalScope" ∧
      ∃ o, replacement? policy f n = some o ∧ fix = GlobalScopeUsage.fix (f.tree.span n) o := by
  unfold findings at hd
  split at hd
  case isTrue href =>
    cases List.mem_singleton.mp hd
    obtain ⟨o, ho, hreplace⟩ := Option.map_eq_some_iff.mp hfix
    exact ⟨(isReference_iff.mp href).1, o, ho, hreplace.symm⟩
  case isFalse => cases hd

/-- What a fix leaves of a qualified reference. The fix of any finding in a file exchanges the name
`GlobalScope`, and nothing else, for the scope of the owner. If the name selects from a path, it is the
path that was resolved; but the text of the path stands in front of the name and stays there, so the fix
does not cover the reference unless there is no such text. -/
theorem fix_keeps_qualifier {source : String} {root : Kotlin.Row}
    (hplaced : root.WellPlaced source.toList) (htree : f.tree = (Kotlin.layout source root).tree)
    {d : Finding} {fix : Fix} (hd : d ∈ findings policy f n) (hfix : d.fix = some fix) :
    ∃ (o : LifecycleOwner) (before after : List Char), replacement? policy f n = some o ∧
      fix.edits = [⟨f.tree.span n, o.accessor⟩] ∧
      source.toList = before ++ ("GlobalScope".toList ++ after) ∧
      Text.byteLength before = (f.tree.span n).start ∧
      fix.apply source = .ok (String.ofList (before ++ o.accessor.toList ++ after)) ∧
      ∀ nav r, f.tree.shape nav = .navigation r n →
        (f.resolver = (Kotlin.layout source root).declarations.resolver →
          f.resolve n = f.resolve nav) ∧
        (∃ front link, before = front ++ (f.tree.text r ++ link) ∧
          Text.byteLength front = (f.tree.span r).start) ∧
        ((f.tree.span n).contains (f.tree.span nav) = true → f.tree.text r = []) := by
  have hsource : f.tree.source = source := by
    rw [htree]
    rfl
  have hspaced : f.tree.Spaced := by
    rw [htree]
    exact Kotlin.layout_spaced hplaced
  have hrooted : f.tree.Rooted := by
    rw [htree]
    exact Kotlin.layout_rooted source root
  obtain ⟨hname, o, ho, rfl⟩ := fix_of_finding hd hfix
  have htext : f.tree.text n = "GlobalScope".toList := by
    rw [htree] at hname ⊢
    exact Kotlin.layout_text_of_identifier hname
  have hslice := Tree.slice?_text hspaced n
  rw [hsource, htext] at hslice
  obtain ⟨before, after, hcontent, hbefore, hstop⟩ := Text.slice?_eq_some_iff.mp hslice
  refine ⟨o, before, after, ho, rfl, hcontent, hbefore, Fix.apply_replace hcontent hbefore hstop, ?_⟩
  intro nav r hnav
  have hle : (f.tree.span r).stop ≤ (f.tree.span n).start := by
    rw [htree] at hnav ⊢
    exact Kotlin.layout_receiver_le_selector hplaced hnav
  have hreceiver := Tree.slice?_text hspaced r
  rw [hsource] at hreceiver
  obtain ⟨front, rest, hfront, hstart, hend⟩ := Text.slice?_eq_some_iff.mp hreceiver
  refine ⟨?_, ?_, ?_⟩
  · intro hresolver
    rw [SourceFile.resolve, SourceFile.resolve, hresolver]
    exact Kotlin.resolve?_selector hrooted hnav hname
  · -- The receiver ends before the name, so both lie in what stands before the name.
    rw [← List.append_assoc] at hfront
    have hshort : Text.byteLength (front ++ f.tree.text r) ≤ Text.byteLength before := by
      rw [Text.byteLength_append]
      omega
    obtain ⟨link, hlink, _⟩ := Text.front_of_le (hfront.symm.trans hcontent) hshort
    exact ⟨front, link, by rw [hlink, List.append_assoc], hstart⟩
  · intro hcovers
    have hinside : (f.tree.span nav).contains (f.tree.span r) = true :=
      hspaced.nested.contains_under (Tree.under_of_mem_parts (by simp [hnav, Shape.parts]))
    rw [Span.contains_iff] at hcovers hinside
    exact Text.byteLength_eq_zero (by omega)

def qualifiedScope : String :=
  "import androidx.lifecycle.ViewModel\nclass A : ViewModel() \x7b\n" ++
    "    val s = kotlinx.coroutines.GlobalScope\n\x7d\n"

def qualifiedScopeRows : Kotlin.Row :=
  .over "source_file" 0 105 [
    .over "import" 0 35 [.token "import" 0 6, .over "qualified_identifier" 7 35 [
      .over "identifier" 7 15 [], .over "identifier" 16 25 [], .over "identifier" 26 35 []]],
    .over "class_declaration" 36 104 [.token "class" 36 41, .over "identifier" 42 43 [],
      .token ":" 44 45,
      .over "delegation_specifiers" 46 57 [.over "delegation_specifier" 46 57 [
        .over "constructor_invocation" 46 57 [
          .over "user_type" 46 55 [.over "identifier" 46 55 []], .over "value_arguments" 55 57 []]]],
      .over "class_body" 58 104 [.over "property_declaration" 64 102 [.token "val" 64 67,
        .over "variable_declaration" 68 69 [.over "identifier" 68 69 []], .token "=" 70 71,
        .over "navigation_expression" 72 102 [
          .over "navigation_expression" 72 90 [.over "identifier" 72 79 [], .over "identifier" 80 90 []],
          .over "identifier" 91 102 []]]]]]

def qualifiedScopeFile : SourceFile :=
  ⟨⟨"A.kt"⟩, (Kotlin.layout qualifiedScope qualifiedScopeRows).tree,
    (Kotlin.layout qualifiedScope qualifiedScopeRows).declarations.resolver,
    [⟨"androidx.lifecycle:lifecycle-viewmodel-ktx:2.6.1"⟩]⟩

def qualifiedScopeFix : Fix :=
  Fix.replace "Replace GlobalScope by viewModelScope" ⟨91, 102⟩ "viewModelScope"

def qualifiedScopeFinding : Finding := ⟨issue, ⟨91, 102⟩, issue.title, some qualifiedScopeFix⟩

private theorem qualifiedScope_reported : qualifiedScopeRows.WellPlaced qualifiedScope.toList ∧
    qualifiedScopeFinding ∈ findings .direct qualifiedScopeFile 3 ∧
    qualifiedScopeFile.tree.shape 4 = .navigation 2 3 := by
  decide +kernel

theorem fix_keeps_qualifier_qualifiedScope :
    qualifiedScopeRows.WellPlaced qualifiedScope.toList ∧
    qualifiedScopeFile.tree = (Kotlin.layout qualifiedScope qualifiedScopeRows).tree ∧
    qualifiedScopeFinding ∈ findings .direct qualifiedScopeFile 3 ∧
    qualifiedScopeFinding.fix = some qualifiedScopeFix ∧
    qualifiedScopeFile.tree.shape 4 = .navigation 2 3 ∧
    qualifiedScopeFile.resolve 3 = qualifiedScopeFile.resolve 4 ∧
    ∃ (o : LifecycleOwner) (front link after : List Char),
      qualifiedScopeFix.apply qualifiedScope = .ok (String.ofList
        (front ++ (qualifiedScopeFile.tree.text 2 ++ link) ++ o.accessor.toList ++ after)) := by
  obtain ⟨hplaced, hfound, hnav⟩ := qualifiedScope_reported
  have htree : qualifiedScopeFile.tree = (Kotlin.layout qualifiedScope qualifiedScopeRows).tree := by
    rw [qualifiedScopeFile]
  have hresolver : qualifiedScopeFile.resolver =
      (Kotlin.layout qualifiedScope qualifiedScopeRows).declarations.resolver := by
    rw [qualifiedScopeFile]
  obtain ⟨o, before, after, _, _, _, _, happly, hqualified⟩ :=
    fix_keeps_qualifier hplaced htree hfound rfl
  obtain ⟨hresolve, ⟨front, link, hbefore, _⟩, _⟩ := hqualified 4 2 hnav
  refine ⟨hplaced, htree, hfound, rfl, hnav, hresolve hresolver, o, front, link, after, ?_⟩
  rw [happly, hbefore]

/-- The path is resolved to the global scope, but the fix that is reported leaves it standing: a package
is named in front of the scope of the class. -/
theorem package_left_before_accessor :
    qualifiedScopeRows.WellPlaced qualifiedScope.toList ∧
    qualifiedScopeFinding ∈ findings .direct qualifiedScopeFile 3 ∧
    qualifiedScopeFile.tree.shape 4 = .navigation 2 3 ∧
    (qualifiedScopeFile.resolve 4).map Symbol.role = some .globalScope ∧
    (∀ e ∈ qualifiedScopeFix.edits, e.span.contains (qualifiedScopeFile.tree.span 4) = false) ∧
    (qualifiedScopeFix.apply qualifiedScope).toOption =
      some ("import androidx.lifecycle.ViewModel\nclass A : ViewModel() \x7b\n" ++
        "    val s = kotlinx.coroutines.viewModelScope\n\x7d\n") := by
  obtain ⟨hplaced, hfound, hnav⟩ := qualifiedScope_reported
  have huncovered : (qualifiedScopeFile.resolve 4).map Symbol.role = some .globalScope ∧
      ∀ e ∈ qualifiedScopeFix.edits, e.span.contains (qualifiedScopeFile.tree.span 4) = false := by
    decide +kernel
  exact ⟨hplaced, hfound, hnav, huncovered.1, huncovered.2, by decide +kernel⟩

end GlobalScopeUsage
end CoroutineCheck

import CoroutineCheck.Proofs.Kotlin.Hierarchy
/-!
# Appended star imports

A star import behind all others is asked last. It answers only where nothing else does, so every
answer of the resolver stays, with its name and its kind. What can change are supertypes of which
nothing but the name was known: the package of the new import may have a type of that name.
-/
namespace CoroutineCheck.Kotlin

namespace Declarations

/-! ## Symbols of which more is known -/

/-- What can become of a supertype when a package is added to those that are looked through last. It
stays, with the types above it changed in the same way; or no look-up had an answer to its name, and it
is now a type of the package. -/
inductive Gains (d : Declarations) (added : String) : Symbol → Symbol → Prop where
  | kept {q p : String} {k : SymbolKind} {above above' : List Symbol} :
      List.Forall₂ (Gains d added) above above' → Gains d added (.mk q k p above) (.mk q k p above')
  | found {name : String} {s : Symbol} : (∀ levels, d.type? levels name = none) →
      s.qualifiedName = added ++ "." ++ name → s.isType = true → Gains d added (guess name .type) s

/-- The same declaration, with supertypes of which more may be known. -/
structure Keeps (d : Declarations) (added : String) (s s' : Symbol) : Prop where
  qualifiedName : s'.qualifiedName = s.qualifiedName
  kind : s'.kind = s.kind
  package : s'.package = s.package
  supertypes : List.Forall₂ (d.Gains added) s.supertypes s'.supertypes

variable {d : Declarations} {added : String}

mutual

theorem Gains.refl : (s : Symbol) → d.Gains added s s
  | .mk _ _ _ above => .kept (forall₂_gains_refl above)

private theorem forall₂_gains_refl : (above : List Symbol) → List.Forall₂ (d.Gains added) above above
  | [] => .nil
  | s :: rest => .cons (Gains.refl s) (forall₂_gains_refl rest)

end

theorem Keeps.refl (s : Symbol) : d.Keeps added s s :=
  ⟨rfl, rfl, rfl, forall₂_gains_refl s.supertypes⟩

private theorem Keeps.gains {s s' : Symbol} (h : d.Keeps added s s') : d.Gains added s s' := by
  cases s with
  | mk q k p above =>
    cases s' with
    | mk q' k' p' above' =>
      cases h.qualifiedName
      cases h.kind
      cases h.package
      exact .kept h.supertypes

private theorem Keeps.isType_eq {s s' : Symbol} (h : d.Keeps added s s') : s'.isType = s.isType := by
  simp only [Symbol.isType, h.kind]

/-! ## Look-ups with more types above -/

/-- Look-ups of types of which the second has all answers of the first, and otherwise types of the
added package under names that had no answer. -/
structure Widens (d : Declarations) (added : String) (above above' : String → Option Symbol) : Prop where
  keeps : ∀ name s, above name = some s → ∃ s', above' name = some s' ∧ d.Keeps added s s'
  finds : ∀ name s, above name = none → above' name = some s →
    (∀ levels, d.type? levels name = none) ∧ s.qualifiedName = added ++ "." ++ name ∧ s.isType = true

variable {above above' : String → Option Symbol}

theorem Widens.classSymbol (h : d.Widens added above above') (c : ClassInfo) :
    d.Keeps added (d.classSymbol above c) (d.classSymbol above' c) := by
  refine ⟨rfl, rfl, rfl, ?_⟩
  simp only [Declarations.classSymbol, Symbol.named, Symbol.supertypes, List.forall₂_map_left_iff,
    List.forall₂_map_right_iff, List.forall₂_same]
  intro text _
  cases hbefore : above text with
  | some s =>
    obtain ⟨s', hafter, hs⟩ := h.keeps text s hbefore
    simpa [hafter] using hs.gains
  | none =>
    cases hafter : above' text with
    | none => exact .refl _
    | some s =>
      obtain ⟨hnone, hname, htype⟩ := h.finds text s hbefore hafter
      exact .found hnone hname htype

private theorem rel_findSome? {α β : Type} {r : β → β → Prop} {f g : α → Option β}
    (h : ∀ a, Option.Rel r (f a) (g a)) (xs : List α) :
    Option.Rel r (xs.findSome? f) (xs.findSome? g) := by
  induction xs with
  | nil => exact .none
  | cons x xs ih =>
    have hx := h x
    simp only [List.findSome?_cons]
    generalize f x = a, g x = b at hx ⊢
    cases hx with
    | none => exact ih
    | some hab => exact .some hab

private theorem eq_none_of_rel {α β : Type} {r : α → β → Prop} {b : Option β} (h : Option.Rel r none b) :
    b = none := by
  cases h
  rfl

private theorem exists_of_rel {α β : Type} {r : α → β → Prop} {a : α} {b : Option β}
    (h : Option.Rel r (some a) b) : ∃ y, b = some y ∧ r a y := by
  cases h with
  | some hab => exact ⟨_, rfl, hab⟩

section Relations

variable {r : Symbol → Symbol → Prop} (hrefl : ∀ s, r s s)
  (hclass : ∀ c, r (d.classSymbol above c) (d.classSymbol above' c))

include hrefl hclass

/-- Whether a qualified name has an answer does not depend on the types above; the answers are related as
the symbols of classes are. -/
private theorem rel_qualified? (q : String) (usage : Usage) :
    Option.Rel r (d.qualified? above q usage) (d.qualified? above' q usage) := by
  unfold qualified?
  cases libraryEntry? q usage with
  | some e => exact .some (hrefl e.symbol)
  | none =>
    cases d.classes.find? (d.qualify ·.2.name == q) with
    | none => exact .none
    | some c => exact .some (hclass c.2)

private theorem rel_simple? (name : String) (usage : Usage) :
    Option.Rel r (d.simple? above name usage) (d.simple? above' name usage) := by
  unfold simple?
  cases d.imports.find? (·.visibleName? == some name) with
  | some i =>
    have hi := rel_qualified? hrefl hclass i.path usage
    simp only
    generalize d.qualified? above i.path usage = a, d.qualified? above' i.path usage = b at hi ⊢
    cases hi with
    | none => exact .some (hrefl _)
    | some hab => exact .some hab
  | none =>
    cases d.classNamed? name with
    | some c => exact .some (hclass c)
    | none =>
      simp only
      split
      · exact .some (hrefl _)
      · apply rel_findSome?
        intro i
        exact rel_qualified? hrefl hclass _ usage

end Relations

theorem Widens.qualified? (h : d.Widens added above above') (q : String) (usage : Usage) :
    Option.Rel (d.Keeps added) (d.qualified? above q usage) (d.qualified? above' q usage) :=
  rel_qualified? Keeps.refl h.classSymbol q usage

theorem Widens.simple? (h : d.Widens added above above') (name : String) (usage : Usage) :
    Option.Rel (d.Keeps added) (d.simple? above name usage) (d.simple? above' name usage) :=
  rel_simple? Keeps.refl h.classSymbol name usage

private theorem type?_eq_none {n : Nat} {name : String} (h : d.type? (n + 1) name = none) (levels : Nat) :
    d.type? levels name = none := by
  cases levels with
  | zero => rfl
  | succ m =>
    have hrel : Option.Rel (fun _ _ => True) (d.type? (n + 1) name) (d.type? (m + 1) name) := by
      simp only [type?]
      split
      · exact rel_qualified? (fun _ => trivial) (fun _ => trivial) name .type
      · exact rel_simple? (fun _ => trivial) (fun _ => trivial) name .type
    rw [h] at hrel
    exact eq_none_of_rel hrel

private theorem qualified?_type_spec {q : String} {s : Symbol} (h : d.qualified? above q .type = some s) :
    s.qualifiedName = q ∧ s.isType = true := by
  unfold Declarations.qualified? at h
  cases hentry : libraryEntry? q .type with
  | some e =>
    rw [hentry] at h
    cases h
    have hspec := Library.typeNamed?_spec hentry
    exact ⟨hspec.2, (List.mem_filter.mp hspec.1).2⟩
  | none =>
    rw [hentry] at h
    obtain ⟨c, hc, rfl⟩ := Option.map_eq_some_iff.mp h
    have hname : d.qualify c.2.name = q := by simpa using List.find?_some hc
    exact ⟨hname, d.isType_classSymbol above c.2⟩

/-! ## The appended import -/

variable {i : Import}

/-- A star import at the end is asked where nothing else has an answer. -/
theorem simple?_addImport (hstar : i.star = true) (above : String → Option Symbol) (name : String)
    (usage : Usage) :
    (d.addImport i).simple? above name usage =
      (d.simple? above name usage).or (d.qualified? above (i.path ++ "." ++ name) usage) := by
  have hvisible : (d.addImport i).imports.find? (·.visibleName? == some name) =
      d.imports.find? (·.visibleName? == some name) := by
    simp [addImport, List.find?_append, Import.visibleName?, hstar]
  have hstars : (d.addImport i).imports.filter (·.star) = d.imports.filter (·.star) ++ [i] := by
    simp [addImport, List.filter_append, hstar]
  have hqualified : (d.addImport i).qualified? = d.qualified? := rfl
  have hclass : (d.addImport i).classSymbol = d.classSymbol := rfl
  have hnamed : (d.addImport i).classNamed? = d.classNamed? := rfl
  have hqualify : (d.addImport i).qualify = d.qualify := rfl
  have hfunctions : (d.addImport i).functions = d.functions := rfl
  simp only [Declarations.simple?, hvisible, hstars, hqualified, hclass, hnamed, hqualify, hfunctions]
  cases d.imports.find? (·.visibleName? == some name) with
  | some j => rfl
  | none =>
    cases d.classNamed? name with
    | some c => rfl
    | none =>
      simp only
      split
      · rfl
      · simp [List.findSome?_append]

private theorem widens_addImport (hstar : i.star = true) (n : Nat) :
    d.Widens i.path (d.type? n) ((d.addImport i).type? n) := by
  induction n with
  | zero =>
    constructor
    · intro name s hs
      cases hs
    · intro name s _ hs
      cases hs
  | succ n ih =>
    have hqualified : (d.addImport i).qualified? = d.qualified? := rfl
    constructor
    · intro name s hs
      by_cases hdotted : name.toList.contains '.' = true
      · have hrel := ih.qualified? name .type
        rw [type?, if_pos hdotted] at hs
        rw [type?, if_pos hdotted, hqualified]
        rw [hs] at hrel
        exact exists_of_rel hrel
      · have hrel := ih.simple? name .type
        rw [type?, if_neg hdotted] at hs
        rw [type?, if_neg hdotted, simple?_addImport hstar]
        rw [hs] at hrel
        obtain ⟨s', hs', hkeeps⟩ := exists_of_rel hrel
        exact ⟨s', by rw [hs', Option.some_or], hkeeps⟩
    · intro name s hnone hs
      refine ⟨type?_eq_none hnone, ?_⟩
      by_cases hdotted : name.toList.contains '.' = true
      · have hrel := ih.qualified? name .type
        rw [type?, if_pos hdotted] at hnone hs
        rw [hnone] at hrel
        rw [hqualified, eq_none_of_rel hrel] at hs
        cases hs
      · have hrel := ih.simple? name .type
        rw [type?, if_neg hdotted] at hnone hs
        rw [hnone] at hrel
        rw [simple?_addImport hstar, eq_none_of_rel hrel, Option.none_or] at hs
        exact qualified?_type_spec hs

/-! ## What nodes refer to -/

private theorem call?_of_shape (d : Declarations) {level : Nat} {t : Tree} {id callee : Nat}
    {receiver lambda : Option Nat} {args : List Nat}
    (hshape : t.shape id = .call receiver callee args lambda) :
    d.call? level t id = (t.identifier? callee).bind fun name =>
      ((receiver.bind (dottedPath? t)).bind fun p =>
        d.qualifiedOn? level (p ++ "." ++ name) .called).or (d.simpleOn? level name .called) := by
  simp only [call?, hshape, Option.bind_eq_bind]
  congr 1
  funext name
  cases (receiver.bind (dottedPath? t)).bind fun p =>
      d.qualifiedOn? level (p ++ "." ++ name) .called with
  | none => rfl
  | some s => rfl

def owner? (d : Declarations) (t : Tree) (level receiver : Nat) : Option Symbol :=
  match t.shape receiver with
  | .identifier name => d.simpleOn? level name .value
  | .navigation _ _ => d.navigation? t level receiver
  | _ => none

def member? (d : Declarations) (t : Tree) (level receiver : Nat) (name : String) : Option Symbol :=
  (d.owner? t level receiver).bind fun owner =>
    if owner.isType then d.qualifiedOn? (level + 1) (owner.qualifiedName ++ "." ++ name) .value
    else none

private theorem navigation?_of_shape (d : Declarations) {level : Nat} {t : Tree} {id receiver selector : Nat}
    (hshape : t.shape id = .navigation receiver selector) :
    d.navigation? t (level + 1) id = (t.identifier? selector).bind fun name =>
      ((dottedPath? t id).bind fun p => d.qualifiedOn? (level + 1) p .value).or
        (d.member? t level receiver name) := by
  simp only [navigation?, hshape, Option.bind_eq_bind]
  congr 1
  funext name
  cases (dottedPath? t id).bind fun p => d.qualifiedOn? (level + 1) p .value with
  | some s => rfl
  | none =>
    simp only [member?, owner?, Option.none_or]
    cases t.shape receiver <;> rfl

def Stays (d : Declarations) (added : String) (answer answer' : Option Symbol) : Prop :=
  ∀ s, answer = some s → ∃ s', answer' = some s' ∧ d.Keeps added s s'

namespace Stays

variable {answer answer' : Option Symbol}

theorem none : d.Stays added none answer' := by
  intro s hs
  cases hs

private theorem of_rel (h : Option.Rel (d.Keeps added) answer answer') : d.Stays added answer answer' := by
  intro s hs
  rw [hs] at h
  exact exists_of_rel h

theorem bind {α : Type} {f g : α → Option Symbol} (h : ∀ a, d.Stays added (f a) (g a)) (o : Option α) :
    d.Stays added (o.bind f) (o.bind g) := by
  cases o with
  | none => exact .none
  | some a => exact h a

end Stays

section Nodes

variable (hstar : i.star = true)

include hstar

private theorem rel_qualifiedOn? (level : Nat) (q : String) (usage : Usage) :
    Option.Rel (d.Keeps i.path) (d.qualifiedOn? level q usage)
      ((d.addImport i).qualifiedOn? level q usage) :=
  (widens_addImport hstar (level - 1)).qualified? q usage

private theorem stays_simpleOn? (level : Nat) (name : String) (usage : Usage) :
    d.Stays i.path (d.simpleOn? level name usage) ((d.addImport i).simpleOn? level name usage) := by
  cases level with
  | zero => exact .none
  | succ n =>
    intro s hs
    obtain ⟨s', hs', hkeeps⟩ := Stays.of_rel ((widens_addImport hstar n).simple? name usage) s hs
    exact ⟨s', by simp [simpleOn?, simple?_addImport hstar, hs'], hkeeps⟩

private theorem stays_path {level : Nat} {path : Option String} {usage : Usage} {name : String → String}
    {other other' : Option Symbol} (hother : d.Stays i.path other other') :
    d.Stays i.path ((path.bind fun p => d.qualifiedOn? level (name p) usage).or other)
      ((path.bind fun p => (d.addImport i).qualifiedOn? level (name p) usage).or other') := by
  cases path with
  | none => simpa using hother
  | some p =>
    have hp := rel_qualifiedOn? (d := d) hstar level (name p) usage
    simp only [Option.bind_some]
    generalize d.qualifiedOn? level (name p) usage = a,
      (d.addImport i).qualifiedOn? level (name p) usage = b at hp ⊢
    cases hp with
    | none => simpa using hother
    | some hab => exact .of_rel (.some hab)

private theorem stays_call? (level : Nat) (t : Tree) (id : Nat) :
    d.Stays i.path (d.call? level t id) ((d.addImport i).call? level t id) := by
  cases hshape : t.shape id with
  | call receiver callee args lambda =>
    rw [call?_of_shape d hshape, call?_of_shape (d.addImport i) hshape]
    apply Stays.bind
    intro name
    exact stays_path hstar (stays_simpleOn? hstar level name .called)
  | _ =>
    simp only [call?, hshape]
    exact .none

/-- The owner has the same name and is as much of a type as before, so the same member is found. -/
private theorem stays_member? {level receiver : Nat} {t : Tree}
    (howner : d.Stays i.path (d.owner? t level receiver) ((d.addImport i).owner? t level receiver))
    (name : String) :
    d.Stays i.path (d.member? t level receiver name) ((d.addImport i).member? t level receiver name) := by
  intro s hs
  obtain ⟨owner, ho, hs⟩ := Option.bind_eq_some_iff.mp hs
  obtain ⟨owner', ho', hkeeps⟩ := howner owner ho
  have htype : owner.isType = true := by
    cases htype : owner.isType with
    | true => rfl
    | false => simp [htype] at hs
  rw [if_pos htype] at hs
  have hmember := rel_qualifiedOn? (d := d) hstar (level + 1) (owner.qualifiedName ++ "." ++ name) .value
  obtain ⟨s', hs', hsame⟩ := Stays.of_rel hmember s hs
  refine ⟨s', ?_, hsame⟩
  simp [member?, ho', hkeeps.isType_eq, htype, hkeeps.qualifiedName, hs']

private theorem stays_navigation? (t : Tree) (level id : Nat) :
    d.Stays i.path (d.navigation? t level id) ((d.addImport i).navigation? t level id) := by
  induction level generalizing id with
  | zero => exact .none
  | succ n ih =>
    cases hshape : t.shape id with
    | navigation receiver selector =>
      rw [navigation?_of_shape d hshape, navigation?_of_shape (d.addImport i) hshape]
      apply Stays.bind
      intro name
      apply stays_path hstar
      apply stays_member? hstar
      unfold owner?
      cases t.shape receiver with
      | identifier r => exact stays_simpleOn? hstar n r .value
      | navigation r m => exact ih receiver
      | _ => exact .none
    | _ =>
      simp only [navigation?, hshape]
      exact .none

end Nodes

/-- After a star import is added behind all others, every node that referred to something refers to the
same declaration, of the same kind. Its supertypes stay as well, or were known by their names only and
are now found in the added package. -/
theorem resolve?_addImport (hstar : i.star = true) {t : Tree} {id : Nat} {s : Symbol}
    (h : d.resolve? t id = some s) :
    ∃ s', (d.addImport i).resolve? t id = some s' ∧ d.Keeps i.path s s' := by
  have hvalue (name : String) := stays_simpleOn? (d := d) hstar maxLevels name .value
  have hstays : d.Stays i.path (d.resolve? t id) ((d.addImport i).resolve? t id) := by
    unfold resolve?
    cases t.shape id with
    | identifier name =>
      cases t.parent? id with
      | none => exact hvalue name
      | some p =>
        simp only [Option.map_some]
        cases t.shape p with
        | navigation receiver selector =>
          by_cases hselector : selector == id
          · simpa [hselector] using stays_navigation? hstar t maxLevels p
          · simpa [hselector] using hvalue name
        | call receiver callee args lambda =>
          by_cases hcallee : callee == id
          · simpa [hcallee] using stays_call? hstar maxLevels t p
          · simpa [hcallee] using hvalue name
        | _ => exact hvalue name
    | call receiver callee args lambda => exact stays_call? hstar maxLevels t id
    | navigation receiver selector => exact stays_navigation? hstar t maxLevels id
    | classDecl name =>
      have hat : (d.addImport i).classAt? id = d.classAt? id := rfl
      simp only [hat]
      cases d.classAt? id with
      | none => exact .none
      | some c => exact .of_rel (.some ((widens_addImport hstar (maxLevels - 1)).classSymbol c))
    | _ => exact .none
  exact hstays s h

end Declarations

/-- A class with two supertypes, of which only one is in an imported package. -/
def bareModel : String := "import kotlinx.coroutines.*\nclass A : ViewModel(), Job\n"

def bareModelRows : Row :=
  .over "source_file" 0 55 [
    .over "import" 0 27 [],
    .over "class_declaration" 28 54 [.token "class" 28 33, .over "identifier" 34 35 [], .token ":" 36 37,
      .over "delegation_specifiers" 38 54 [
        .over "delegation_specifier" 38 49 [.over "constructor_invocation" 38 49 [
          .over "user_type" 38 47 [.over "identifier" 38 47 []], .over "value_arguments" 47 49 []]],
        .over "delegation_specifier" 51 54 [.over "user_type" 51 54 [.over "identifier" 51 54 []]]]]]

def bareModelLayout : Layout := layout bareModel bareModelRows

def lifecycleImport : Import := ⟨2, "androidx.lifecycle", none, true⟩

theorem resolve?_addImport_bareModel :
    lifecycleImport.star = true ∧
    ∃ s s', bareModelLayout.declarations.resolve? bareModelLayout.tree 0 = some s ∧
      (bareModelLayout.declarations.addImport lifecycleImport).resolve? bareModelLayout.tree 0 = some s' ∧
      bareModelLayout.declarations.Keeps "androidx.lifecycle" s s' ∧
      s.supertypes.map (·.qualifiedName) = ["ViewModel", "kotlinx.coroutines.Job"] ∧
      s'.supertypes.map (·.qualifiedName) =
        ["androidx.lifecycle.ViewModel", "kotlinx.coroutines.Job"] := by
  have hbefore : (bareModelLayout.declarations.resolve? bareModelLayout.tree 0).map
      (·.supertypes.map (·.qualifiedName)) = some ["ViewModel", "kotlinx.coroutines.Job"] := by
    decide +kernel
  have hafter : ((bareModelLayout.declarations.addImport lifecycleImport).resolve?
      bareModelLayout.tree 0).map (·.supertypes.map (·.qualifiedName)) =
        some ["androidx.lifecycle.ViewModel", "kotlinx.coroutines.Job"] := by
    decide +kernel
  obtain ⟨s, hs, hnames⟩ := Option.map_eq_some_iff.mp hbefore
  obtain ⟨s', hs', hkeeps⟩ := Declarations.resolve?_addImport (i := lifecycleImport) rfl hs
  rw [hs', Option.map_some] at hafter
  exact ⟨rfl, s, s', hs, hs', hkeeps, hnames, Option.some.inj hafter⟩

end CoroutineCheck.Kotlin

import CoroutineCheck.Proofs.Kotlin.Hierarchy
import CoroutineCheck.Rules.Role
/-!
# Variables and imported names

The type of an identifier is that of the variable it names, if one can be seen from its place. The
declaration it refers to is looked for among imports and classes only. So an import hides a variable of
the same name from the resolver, and where no import brings the name the variable is safe.
-/
namespace CoroutineCheck

/-- An identifier that stands for a value itself: it is neither the selector of a navigation nor the
callee of a call. -/
structure Tree.PlainValue (t : Tree) (id : Nat) (name : String) : Prop where
  shape : t.shape id = .identifier name
  not_selector : ∀ p receiver selector, t.parent? id = some p →
    t.shape p = .navigation receiver selector → selector ≠ id
  not_callee : ∀ p receiver callee args lambda, t.parent? id = some p →
    t.shape p = .call receiver callee args lambda → callee ≠ id

private theorem Tree.PlainValue.of_parent {t : Tree} {id p : Nat} {name kind : String}
    (hshape : t.shape id = .identifier name) (hp : t.parent? id = some p)
    (hkind : t.shape p = .other kind) : t.PlainValue id name := by
  refine ⟨hshape, ?_, ?_⟩
  · intro q _ _ hq hshape
    cases hp.symm.trans hq
    cases hkind.symm.trans hshape
  · intro q _ _ _ _ hq hshape
    cases hp.symm.trans hq
    cases hkind.symm.trans hshape

namespace Kotlin

def Library.values : List Symbol := (entries.map (·.symbol)).filter (·.kind != .function)

private theorem Library.values_distinct : (values.map (·.qualifiedName)).Nodup := by decide +kernel

private theorem libraryEntry?_value_eq_none_iff {q : String} :
    libraryEntry? q .value = none ↔ ∀ s ∈ Library.values, s.qualifiedName ≠ q := by
  constructor
  · intro h s hs hname
    obtain ⟨e, he, _⟩ := Library.find?_named_of_mem Library.values_distinct hs
    rw [hname] at he
    exact Option.some_ne_none e (he.symm.trans h)
  · intro h
    apply Option.eq_none_iff_forall_not_mem.mpr
    intro e he
    have hspec := Library.find?_named_spec (p := fun s => s.kind != .function) he
    exact h e.symbol hspec.1 hspec.2

def Target.valueSymbol (d : Declarations) : Target → Symbol
  | own c => d.classSymbol (d.type? Declarations.maxDepth) c
  | library s => s
  | bare q => guess q .value

namespace Declarations

/-! ## What a name stands for -/

/-- A value with a qualified name: one of the library, else the first class of the file. -/
inductive DeclaresValue (d : Declarations) (q : String) : Target → Prop where
  | library {s : Symbol} : s ∈ Library.values → s.qualifiedName = q → DeclaresValue d q (.library s)
  | own {node : Nat} {c : ClassInfo} : (∀ s ∈ Library.values, s.qualifiedName ≠ q) →
      First (d.qualify ·.2.name = q) d.classes (node, c) → DeclaresValue d q (.own c)

def SuppliesValue (d : Declarations) (name : String) (i : Import) : Prop :=
  i.star = true ∧ ∃ u, d.DeclaresValue (i.path ++ "." ++ name) u

/-- What a simple name stands for as a value: the first explicit import of the name, which is taken at
its word where nothing is known of it, else the first class of the file, else what the first star import
supplies. Variables do not come into it. -/
inductive StandsForValue (d : Declarations) (name : String) : Target → Prop where
  | imported {i : Import} {u : Target} : First (·.visibleName? = some name) d.imports i →
      d.DeclaresValue i.path u → StandsForValue d name u
  | guessed {i : Import} : First (·.visibleName? = some name) d.imports i →
      (∀ u, ¬ d.DeclaresValue i.path u) → StandsForValue d name (.bare i.path)
  | own {node : Nat} {c : ClassInfo} : (∀ i ∈ d.imports, i.visibleName? ≠ some name) →
      First (·.2.name = name) d.classes (node, c) → StandsForValue d name (.own c)
  | starred {i : Import} {u : Target} : (∀ i ∈ d.imports, i.visibleName? ≠ some name) →
      (∀ c ∈ d.classes, c.2.name ≠ name) → First (d.SuppliesValue name) d.imports i →
      d.DeclaresValue (i.path ++ "." ++ name) u → StandsForValue d name u

variable {d : Declarations} {name : String}

private theorem qualified?_value_of_declares {q : String} {u : Target} (h : d.DeclaresValue q u) :
    d.qualified? (d.type? maxDepth) q .value = some (u.valueSymbol d) := by
  cases h with
  | library hs hname =>
    obtain ⟨e, he, rfl⟩ := Library.find?_named_of_mem Library.values_distinct hs
    have hentry : libraryEntry? q .value = some e := hname ▸ he
    simp only [qualified?, hentry, Target.valueSymbol]
  | @own node c hlibrary hc =>
    have hfind : d.classes.find? (d.qualify ·.2.name == q) = some (node, c) :=
      First.find?_eq_some_iff.mpr (hc.congr fun _ => beq_iff_eq.symm)
    simp only [qualified?, libraryEntry?_value_eq_none_iff.mpr hlibrary, hfind, Option.map_some,
      Target.valueSymbol]

private theorem qualified?_value_eq_none_iff {q : String} :
    d.qualified? (d.type? maxDepth) q .value = none ↔ ∀ u, ¬ d.DeclaresValue q u := by
  constructor
  · intro h u hu
    rw [qualified?_value_of_declares hu] at h
    cases h
  · intro h
    have hlibrary : libraryEntry? q .value = none :=
      libraryEntry?_value_eq_none_iff.mpr fun s hs hname => h _ (.library hs hname)
    have hfind : d.classes.find? (d.qualify ·.2.name == q) = none := by
      apply Option.eq_none_iff_forall_not_mem.mpr
      intro c hc
      have hfirst := (First.find?_eq_some_iff.mp hc).congr fun _ => beq_iff_eq
      exact h _ (.own (libraryEntry?_value_eq_none_iff.mp hlibrary) hfirst)
    simp only [qualified?, hlibrary, hfind, Option.map_none]

private theorem suppliesValue_iff {i : Import} : d.SuppliesValue name i ↔
    i.star = true ∧ d.qualified? (d.type? maxDepth) (i.path ++ "." ++ name) .value ≠ none := by
  rw [SuppliesValue, ne_eq, qualified?_value_eq_none_iff]
  simp

private theorem find?_visible_eq_none (h : ∀ i ∈ d.imports, i.visibleName? ≠ some name) :
    d.imports.find? (·.visibleName? == some name) = none := by
  simpa [List.find?_eq_none] using h

private theorem simple?_value_of_unseen (hunseen : ∀ i ∈ d.imports, i.visibleName? ≠ some name)
    (hno : ∀ c ∈ d.classes, c.2.name ≠ name) :
    d.simple? (d.type? maxDepth) name .value =
      (d.imports.filter (·.star)).findSome? fun i =>
        d.qualified? (d.type? maxDepth) (i.path ++ "." ++ name) .value := by
  rw [simple?, find?_visible_eq_none hunseen, classNamed?_eq_none hno]
  rfl

private theorem simple?_value_of_standsFor {u : Target} (h : d.StandsForValue name u) :
    d.simple? (d.type? maxDepth) name .value = some (u.valueSymbol d) := by
  cases h with
  | imported hi hu =>
    rw [simple?, find?_visible_eq_some hi]
    simp only [qualified?_value_of_declares hu, Option.getD_some]
  | guessed hi hnone =>
    rw [simple?, find?_visible_eq_some hi]
    simp only [qualified?_value_eq_none_iff.mpr hnone, Option.getD_none, Target.valueSymbol]
  | @own node c hunseen hc =>
    have hclass : d.classes.find? (·.2.name == name) = some (node, c) :=
      First.find?_eq_some_iff.mpr (hc.congr fun _ => beq_iff_eq.symm)
    simp only [simple?, find?_visible_eq_none hunseen, classNamed?, hclass, Option.map_some,
      Target.valueSymbol]
  | starred hunseen hno hi hu =>
    rw [simple?_value_of_unseen hunseen hno]
    exact (hi.congr fun _ => suppliesValue_iff).findSome?_filter (qualified?_value_of_declares hu)

private theorem simple?_value_eq_none (h : ∀ u, ¬ d.StandsForValue name u) :
    d.simple? (d.type? maxDepth) name .value = none := by
  have hunseen : ∀ i ∈ d.imports, i.visibleName? ≠ some name := by
    intro i hi hname
    obtain ⟨j, hj⟩ := exists_first (p := fun j => j.visibleName? = some name) ⟨i, hi, hname⟩
    by_cases hdeclares : ∃ u, d.DeclaresValue j.path u
    · obtain ⟨u, hu⟩ := hdeclares
      exact h u (.imported hj hu)
    · exact h _ (.guessed hj (not_exists.mp hdeclares))
  have hno : ∀ c ∈ d.classes, c.2.name ≠ name := by
    intro c hc hname
    obtain ⟨c', hc'⟩ := exists_first (p := fun c => c.2.name = name) ⟨c, hc, hname⟩
    exact h _ (.own hunseen hc')
  rw [simple?_value_of_unseen hunseen hno]
  apply List.findSome?_eq_none_iff.mpr
  intro i hi
  obtain ⟨hi, hstar⟩ := List.mem_filter.mp hi
  -- A package with an answer would make the name stand for it.
  apply qualified?_value_eq_none_iff.mpr
  intro u hu
  obtain ⟨j, hj⟩ := exists_first (p := d.SuppliesValue name) ⟨i, hi, hstar, u, hu⟩
  obtain ⟨_, w, hw⟩ := hj.holds
  exact h w (.starred hunseen hno hj hw)

private theorem simple?_value_iff {s : Symbol} : d.simple? (d.type? maxDepth) name .value = some s ↔
    ∃ u, d.StandsForValue name u ∧ u.valueSymbol d = s := by
  constructor
  · intro h
    by_cases hstands : ∃ u, d.StandsForValue name u
    · obtain ⟨u, hu⟩ := hstands
      rw [simple?_value_of_standsFor hu] at h
      exact ⟨u, hu, Option.some.inj h⟩
    · rw [simple?_value_eq_none (not_exists.mp hstands)] at h
      cases h
  · rintro ⟨u, hu, rfl⟩
    exact simple?_value_of_standsFor hu

/-! ## Identifiers that name a variable -/

private theorem resolve?_of_plainValue {t : Tree} {id : Nat} (h : t.PlainValue id name) :
    d.resolve? t id = d.simple? (d.type? maxDepth) name .value := by
  have hlevel : d.simpleOn? maxLevels name .value = d.simple? (d.type? maxDepth) name .value := rfl
  rw [resolve?]
  simp only [h.shape]
  cases hp : t.parent? id with
  | none => exact hlevel
  | some p =>
    cases hshape : t.shape p with
    | navigation receiver selector =>
      simp only [Option.map_some, hshape, beq_eq_false_iff_ne.mpr (h.not_selector p _ _ hp hshape)]
      exact hlevel
    | call receiver callee args lambda =>
      simp only [Option.map_some, hshape, beq_eq_false_iff_ne.mpr (h.not_callee p _ _ _ _ hp hshape)]
      exact hlevel
    | _ =>
      simp only [Option.map_some, hshape]
      exact hlevel

private theorem typeOf?_of_variableAt {t : Tree} {id : Nat} {v : VariableInfo}
    (hshape : t.shape id = .identifier name) (hv : d.variableAt? name (t.span id).start = some v) :
    d.typeOf? t maxLevels id =
      v.type.elim (v.initializer.bind (d.typeOf? t maxDepth)) (d.type? maxDepth) := by
  have hvalue : t.argumentValue id = id := by simp [Tree.argumentValue, hshape]
  have hstrip : t.stripParens id = id := by
    rw [Tree.stripParens]
    split
    · simp_all
    · rfl
  rw [show maxLevels = maxDepth + 1 from rfl, typeOf?]
  simp only [hvalue, hstrip, hshape, hv]
  cases v.type <;> rfl

/-- No import brings a value of the name into view: none makes the name visible, and the packages that
are imported whole have no such value, or are passed over for a class of the file. -/
def Unsupplied (d : Declarations) (name : String) : Prop :=
  (∀ i ∈ d.imports, i.visibleName? ≠ some name) ∧
    ((∃ c ∈ d.classes, c.2.name = name) ∨
      ∀ i ∈ d.imports, i.star = true → ∀ s ∈ Library.values, s.qualifiedName ≠ i.path ++ "." ++ name)

private theorem Unsupplied.mem_classes {u : Target} (h : d.Unsupplied name) (hu : d.StandsForValue name u) :
    ∃ c ∈ d.classes, u = .own c.2 := by
  cases hu with
  | imported hi _ => exact absurd hi.holds (h.1 _ hi.mem)
  | guessed hi _ => exact absurd hi.holds (h.1 _ hi.mem)
  | own _ hc => exact ⟨_, hc.mem, rfl⟩
  | starred _ hno hi hu =>
    rcases h.2 with ⟨c, hc, hname⟩ | hstar
    · exact absurd hname (hno c hc)
    · cases hu with
      | library hs hname => exact absurd hname (hstar _ hi.mem hi.holds.1 _ hs)
      | own _ hc => exact ⟨_, hc.mem, rfl⟩

end Declarations

private theorem role_eq_unrelated {s : Symbol} (htype : s.isType = true)
    (hname : ∀ u ∈ Library.values, u.qualifiedName ≠ s.qualifiedName) : s.role = .unrelated := by
  have hfunction : s.isFunction = false := by
    cases hkind : s.kind <;> simp_all [Symbol.isType, Symbol.isFunction]
  have hne {q : String} (hq : q ∈ Library.values.map (·.qualifiedName)) :
      (s.qualifiedName == q) = false := by
    obtain ⟨u, hu, rfl⟩ := List.mem_map.mp hq
    exact beq_eq_false_iff_ne.mpr (hname u hu).symm
  have hscope := hne (q := "kotlinx.coroutines.GlobalScope") (by decide +kernel)
  have hcancel := hne (q := "kotlinx.coroutines.NonCancellable") (by decide +kernel)
  have hmodel := hne (q := LifecycleOwner.viewModel.className) (by decide +kernel)
  have hfragment := hne (q := LifecycleOwner.fragment.className) (by decide +kernel)
  simp [Symbol.role, htype, hfunction, hscope, hcancel, hmodel, hfragment]

open Declarations

private theorem resolve_of_plainValue {f : SourceFile} {d : Declarations} (hf : f.resolver = d.resolver)
    {id : Nat} {name : String} (h : f.tree.PlainValue id name) :
    f.resolve id = d.simple? (d.type? maxDepth) name .value := by
  rw [SourceFile.resolve, hf]
  exact resolve?_of_plainValue h

/-- An identifier in value position that names a variable in scope has the variable's type, but it
refers to what its name stands for among imports and classes. Where no import brings the name, the
answer is a class of the file or none, and the identifier has no role unless that class bears a name of
the library. -/
theorem variable_safe_from_unsupplied {f : SourceFile} {d : Declarations} (hf : f.resolver = d.resolver)
    {id : Nat} {name : String} (hplain : f.tree.PlainValue id name) {v : VariableInfo}
    (hv : d.variableAt? name (f.tree.span id).start = some v) :
    f.typeOf id = v.type.elim (v.initializer.bind (d.typeOf? f.tree maxDepth)) (d.type? maxDepth) ∧
    (∀ s, f.resolve id = some s ↔ ∃ u, d.StandsForValue name u ∧ u.valueSymbol d = s) ∧
    (d.Unsupplied name →
      (∀ s, f.resolve id = some s → ∃ c ∈ d.classes, s = d.classSymbol (d.type? maxDepth) c.2) ∧
      ((∀ s, f.resolve id = some s → ∀ u ∈ Library.values, u.qualifiedName ≠ s.qualifiedName) →
        f.role id = .unrelated)) := by
  have hresolve := resolve_of_plainValue hf hplain
  have hown (hun : d.Unsupplied name) (s : Symbol) (hs : f.resolve id = some s) :
      ∃ c ∈ d.classes, s = d.classSymbol (d.type? maxDepth) c.2 := by
    rw [hresolve] at hs
    obtain ⟨u, hu, rfl⟩ := simple?_value_iff.mp hs
    obtain ⟨c, hc, rfl⟩ := hun.mem_classes hu
    exact ⟨c, hc, rfl⟩
  refine ⟨?_, ?_, ?_⟩
  · rw [SourceFile.typeOf, hf]
    exact typeOf?_of_variableAt hplain.shape hv
  · intro s
    rw [hresolve]
    exact simple?_value_iff
  · intro hun
    refine ⟨hown hun, fun hnames => ?_⟩
    rw [SourceFile.role]
    cases hs : f.resolve id with
    | none => rfl
    | some s =>
      obtain ⟨c, hc, rfl⟩ := hown hun s hs
      exact role_eq_unrelated (d.isType_classSymbol _ c.2) (hnames _ hs)

/-- A property of the file that is named like an object of the library, behind an import of a whole
package. -/
def ownProperty (package : String) : String :=
  "import " ++ package ++ ".*\nclass Own\nval NonCancellable: Own = x\nval b = NonCancellable\n"

def ownPropertyRows : Row :=
  .over "source_file" 0 89 [
    .over "import" 0 27 [.over "qualified_identifier" 7 25 []],
    .over "class_declaration" 28 37 [.token "class" 28 33, .over "identifier" 34 37 []],
    .over "property_declaration" 38 65 [.token "val" 38 41,
      .over "variable_declaration" 42 61 [.over "identifier" 42 56 [], .token ":" 56 57,
        .over "user_type" 58 61 [.over "identifier" 58 61 []]],
      .token "=" 62 63, .over "identifier" 64 65 []],
    .over "property_declaration" 66 88 [.token "val" 66 69,
      .over "variable_declaration" 70 71 [.over "identifier" 70 71 []], .token "=" 72 73,
      .over "identifier" 74 88 []]]

def ownPropertyLayout (package : String) : Layout := layout (ownProperty package) ownPropertyRows

def ownPropertyFile (package : String) : SourceFile :=
  ⟨⟨"own.kt"⟩, (ownPropertyLayout package).tree, (ownPropertyLayout package).declarations.resolver, []⟩

def ownVariable : VariableInfo := ⟨"NonCancellable", some "Own", some 1, ⟨0, 89⟩⟩

structure ReadsOwnProperty (package : String) : Prop where
  plain : (ownPropertyFile package).tree.PlainValue 2 "NonCancellable"
  inScope : (ownPropertyLayout package).declarations.variableAt? "NonCancellable"
    ((ownPropertyFile package).tree.span 2).start = some ownVariable

private theorem ReadsOwnProperty.of_file {package : String}
    (h : (ownPropertyFile package).tree.shape 2 = .identifier "NonCancellable" ∧
      (ownPropertyFile package).tree.parent? 2 = some 3 ∧
      (ownPropertyFile package).tree.shape 3 = .other "source_file" ∧
      (ownPropertyLayout package).declarations.variableAt? "NonCancellable"
        ((ownPropertyFile package).tree.span 2).start = some ownVariable) :
    ReadsOwnProperty package := by
  obtain ⟨hshape, hparent, hroot, hscope⟩ := h
  exact ⟨.of_parent hshape hparent hroot, hscope⟩

theorem variable_safe_from_unsupplied_lifecycle :
    ReadsOwnProperty "androidx.lifecycle" ∧
    (ownPropertyLayout "androidx.lifecycle").declarations.Unsupplied "NonCancellable" ∧
    (ownPropertyFile "androidx.lifecycle").typeOf 2 =
      (ownPropertyLayout "androidx.lifecycle").declarations.type? maxDepth "Own" ∧
    (ownPropertyFile "androidx.lifecycle").role 2 = .unrelated := by
  have hreads : ReadsOwnProperty "androidx.lifecycle" := .of_file (by decide +kernel)
  have hun : (ownPropertyLayout "androidx.lifecycle").declarations.Unsupplied "NonCancellable" := by
    unfold Unsupplied
    decide +kernel
  obtain ⟨htype, _, hsafe⟩ := variable_safe_from_unsupplied
    (f := ownPropertyFile "androidx.lifecycle") rfl hreads.plain hreads.inScope
  simp only [ownVariable, Option.elim_some] at htype
  obtain ⟨hown, hrole⟩ := hsafe hun
  refine ⟨hreads, hun, htype, hrole ?_⟩
  intro s hs
  obtain ⟨c, hc, rfl⟩ := hown s hs
  have hnames : ∀ c ∈ (ownPropertyLayout "androidx.lifecycle").declarations.classes, ∀ u ∈ Library.values,
      u.qualifiedName ≠ (ownPropertyLayout "androidx.lifecycle").declarations.qualify c.2.name := by
    decide +kernel
  rw [qualifiedName_classSymbol]
  exact hnames c hc

def nonCancellable : Symbol :=
  .named "kotlinx.coroutines.NonCancellable" .objectType [Library.abstractElement]

/-- With the library's package imported whole, the name of the property refers to the library's object,
although its type is that of the property. -/
theorem star_import_hides_variable :
    ReadsOwnProperty "kotlinx.coroutines" ∧ nonCancellable ∈ Library.values ∧
    (ownPropertyFile "kotlinx.coroutines").resolve 2 = some nonCancellable ∧
    ((ownPropertyFile "kotlinx.coroutines").typeOf 2).map (·.qualifiedName) = some "Own" ∧
    (ownPropertyFile "kotlinx.coroutines").role 2 = .nonCancellable := by
  have hreads : ReadsOwnProperty "kotlinx.coroutines" := .of_file (by decide +kernel)
  have hlibrary : nonCancellable ∈ Library.values := List.mem_of_getElem? (i := 8) rfl
  obtain ⟨himports, hno, htype⟩ : (ownPropertyLayout "kotlinx.coroutines").declarations.imports =
        [⟨1, "kotlinx.coroutines", none, true⟩] ∧
      (∀ c ∈ (ownPropertyLayout "kotlinx.coroutines").declarations.classes,
        c.2.name ≠ "NonCancellable") ∧
      ((ownPropertyFile "kotlinx.coroutines").typeOf 2).map (·.qualifiedName) = some "Own" := by
    decide +kernel
  have hvalue : (ownPropertyLayout "kotlinx.coroutines").declarations.DeclaresValue
      ("kotlinx.coroutines" ++ "." ++ "NonCancellable") (.library nonCancellable) :=
    .library hlibrary (by decide +kernel)
  have hstands : (ownPropertyLayout "kotlinx.coroutines").declarations.StandsForValue
      "NonCancellable" (.library nonCancellable) := by
    refine .starred ?_ hno ⟨[], [], himports, ⟨rfl, _, hvalue⟩, by simp⟩ hvalue
    rw [himports]
    decide +kernel
  have hresolve : (ownPropertyFile "kotlinx.coroutines").resolve 2 = some nonCancellable :=
    (resolve_of_plainValue rfl hreads.plain).trans (simple?_value_of_standsFor hstands)
  have hrole : (ownPropertyFile "kotlinx.coroutines").role 2 = .nonCancellable := by
    rw [SourceFile.role, hresolve]
    decide +kernel
  exact ⟨hreads, hlibrary, hresolve, htype, hrole⟩

end Kotlin
end CoroutineCheck

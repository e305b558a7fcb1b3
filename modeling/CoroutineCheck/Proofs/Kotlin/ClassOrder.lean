import CoroutineCheck.Kotlin.Expressions
import CoroutineCheck.Proofs.Kotlin.Nesting
import CoroutineCheck.Proofs.Lists.Lookup
/-!
# The order of classes

The classes of a file are looked up by their node, by their name and by their qualified name. Nodes are
distinct, so the first look-up is the same in every order. The other two take the first class that
has the name. So the answers of the resolver do not depend on the order as long as classes of one name
declare the same, and they do in a file where such classes differ.
-/
namespace CoroutineCheck.Kotlin

namespace Declarations

/-! ## Declarations that answer alike -/

/-- Declarations that differ in nothing that look-ups can see. -/
structure Alike (d d' : Declarations) : Prop where
  package : d.package = d'.package
  imports : d.imports = d'.imports
  functions : d.functions = d'.functions
  bindings : d.bindings = d'.bindings
  classAt : ∀ node, d.classAt? node = d'.classAt? node
  named : ∀ name, d.classNamed? name = d'.classNamed? name
  qualified : ∀ name, (d.classes.find? fun c => d.qualify c.2.name == name).map (·.2) =
    (d'.classes.find? fun c => d'.qualify c.2.name == name).map (·.2)

namespace Alike

variable {d d' : Declarations} (h : d.Alike d')

include h

private theorem qualify_eq (name : String) : d.qualify name = d'.qualify name := by
  have hpath : d.packagePath = d'.packagePath := by
    rw [packagePath, packagePath, h.package]
  rw [qualify, qualify, hpath]

private theorem classSymbol_eq (above : String → Option Symbol) (c : ClassInfo) :
    d.classSymbol above c = d'.classSymbol above c := by
  simp only [classSymbol, h.qualify_eq]

private theorem qualified?_eq (above : String → Option Symbol) (name : String) (usage : Usage) :
    d.qualified? above name usage = d'.qualified? above name usage := by
  unfold qualified?
  cases libraryEntry? name usage with
  | some e => rfl
  | none =>
    have hclass := congrArg (Option.map (d.classSymbol above)) (h.qualified name)
    simpa only [Option.map_map, Function.comp_def, h.classSymbol_eq] using hclass

theorem simple?_eq (above : String → Option Symbol) (name : String) (usage : Usage) :
    d.simple? above name usage = d'.simple? above name usage := by
  simp only [simple?, h.imports, h.named, h.functions, h.qualified?_eq, h.classSymbol_eq, h.qualify_eq]

private theorem type?_eq (n : Nat) : d.type? n = d'.type? n := by
  induction n with
  | zero => rfl
  | succ n ih =>
    funext name
    simp only [type?, ih, h.qualified?_eq, h.simple?_eq]

private theorem qualifiedOn?_eq (level : Nat) (name : String) (usage : Usage) :
    d.qualifiedOn? level name usage = d'.qualifiedOn? level name usage := by
  simp only [qualifiedOn?, h.type?_eq, h.qualified?_eq]

private theorem simpleOn?_eq (level : Nat) (name : String) (usage : Usage) :
    d.simpleOn? level name usage = d'.simpleOn? level name usage := by
  cases level with
  | zero => rfl
  | succ n => simp only [simpleOn?, h.type?_eq, h.simple?_eq]

private theorem call?_eq (level : Nat) (t : Tree) (id : Nat) : d.call? level t id = d'.call? level t id := by
  simp only [call?, h.qualifiedOn?_eq, h.simpleOn?_eq]

private theorem navigation?_eq (t : Tree) (level : Nat) : d.navigation? t level = d'.navigation? t level := by
  induction level with
  | zero => rfl
  | succ n ih =>
    funext id
    simp only [navigation?, ih, h.qualifiedOn?_eq, h.simpleOn?_eq]

private theorem valueType?_eq (below : Nat) (s : Symbol) : d.valueType? below s = d'.valueType? below s := by
  simp only [valueType?, h.functions, h.type?_eq, h.qualify_eq]

private theorem variableAt?_eq (name : String) (offset : Nat) :
    d.variableAt? name offset = d'.variableAt? name offset := by
  simp only [variableAt?, h.bindings]

private theorem typeOf?_eq (t : Tree) (level : Nat) : d.typeOf? t level = d'.typeOf? t level := by
  induction level with
  | zero => rfl
  | succ n ih =>
    have hvalue : d.valueType? n = d'.valueType? n := funext (h.valueType?_eq n)
    funext id
    simp only [typeOf?, ih, h.type?_eq, h.variableAt?_eq, h.simpleOn?_eq, h.call?_eq,
      h.navigation?_eq, hvalue]

private theorem resolver_eq : d.resolver = d'.resolver := by
  have hresolve : d.resolve? = d'.resolve? := by
    funext t id
    have hclass : d.classSymbol (d.type? (maxLevels - 1)) = d'.classSymbol (d'.type? (maxLevels - 1)) := by
      rw [h.type?_eq]
      exact funext (h.classSymbol_eq _)
    simp only [resolve?, h.simpleOn?_eq, h.call?_eq, h.navigation?_eq, h.classAt, hclass]
  simp only [resolver, hresolve, h.typeOf?_eq]

end Alike

/-! ## Orders of the classes -/

theorem qualify_injective (d : Declarations) : Function.Injective d.qualify := by
  intro a b h
  unfold qualify at h
  split at h
  · exact h
  · have hlist := congrArg String.toList h
    simp only [String.toList_append, List.append_assoc, List.append_cancel_left_eq] at hlist
    exact String.toList_injective hlist

def listing (d : Declarations) (classes : List (Nat × ClassInfo)) : Declarations :=
  { d with classes := classes }

/-- Classes of one name are of one kind and have the same supertypes. -/
def Consistent (d : Declarations) : Prop :=
  ∀ c ∈ d.classes, ∀ c' ∈ d.classes, c.2.name = c'.2.name → c.2 = c'.2

private theorem alike_of_perm {d : Declarations} (hnodes : (d.classes.map (·.1)).Nodup) (hd : d.Consistent)
    {classes : List (Nat × ClassInfo)} (hperm : d.classes.Perm classes) :
    d.Alike (d.listing classes) where
  package := rfl
  imports := rfl
  functions := rfl
  bindings := rfl
  classAt node := by
    rw [classAt?, classAt?]
    exact lookup_eq_of_perm hnodes hperm node
  named name := by
    apply find?_map_of_perm hperm
    intro c hc c' hc' hname hname'
    exact hd c hc c' hc' ((beq_iff_eq.mp hname).trans (beq_iff_eq.mp hname').symm)
  qualified name := by
    apply find?_map_of_perm hperm
    intro c hc c' hc' hname hname'
    apply hd c hc c' hc'
    exact d.qualify_injective ((beq_iff_eq.mp hname).trans (beq_iff_eq.mp hname').symm)

end Declarations

/-! ## Nodes of classes -/

namespace Draft

/-- The nodes of the classes are in the arena and stand in the order in which they were added. -/
structure Keyed (d : Draft) : Prop where
  increasing : (d.declarations.classes.map (·.1)).Pairwise (· < ·)
  placed : ∀ c ∈ d.declarations.classes, c.1 < d.arena.size

variable {d : Draft}

private theorem keyed_empty : Draft.empty.Keyed := ⟨.nil, by simp [Draft.empty, Declarations.empty]⟩

theorem Keyed.add (h : d.Keyed) (shape : Shape) (span : Span) (children : List Nat) :
    (d.add shape span children).2.Keyed where
  increasing := h.increasing
  placed c hc := by
    have hsize : (d.add shape span children).2.arena.size = d.arena.size + 1 :=
      Arena.size_add d.arena shape span children
    have := h.placed c hc
    omega

theorem Keyed.declare (h : d.Keyed) (f : Declarations → Declarations)
    (hf : (f d.declarations).classes = d.declarations.classes) : (d.declare f).Keyed where
  increasing := by
    rw [Draft.declare, hf]
    exact h.increasing
  placed := by
    rw [Draft.declare, hf]
    exact h.placed

theorem Keyed.addClass (h : d.Keyed) (shape : Shape) (span : Span) (children : List Nat)
    (info : ClassInfo) :
    ((d.add shape span children).2.declare (·.addClass (d.add shape span children).1 info)).Keyed where
  increasing := by
    have hnew : ∀ c ∈ d.declarations.classes, c.1 < d.arena.next := h.placed
    simp only [Draft.declare, Draft.add, Declarations.addClass, List.map_append, List.map_cons,
      List.map_nil, List.pairwise_append]
    exact ⟨h.increasing, List.pairwise_singleton _ _, by simpa using hnew⟩
  placed c hc := by
    have hsize : (d.add shape span children).2.arena.size = d.arena.size + 1 :=
      Arena.size_add d.arena shape span children
    change c.1 < (d.add shape span children).2.arena.size
    rcases List.mem_append.mp hc with hc | hc
    · have := h.placed c hc
      omega
    · rw [List.mem_singleton.mp hc, hsize]
      exact Nat.lt_succ_self _

end Draft

namespace Outline

def KeepsKeys (o : Outline) : Prop :=
  ∀ (scope : Span) (d : Draft), d.Keyed → (o.place scope d).2.Keyed

private theorem keyed_placeAll {os : List Outline} (h : ∀ o ∈ os, o.KeepsKeys) (scope : Span) {d : Draft}
    (hd : d.Keyed) : (placeAll scope os d).2.Keyed := by
  induction os generalizing d with
  | nil => exact hd
  | cons o os ih =>
    obtain ⟨ho, hos⟩ := List.forall_mem_cons.mp h
    exact ih hos (ho scope d hd)

private theorem keyed_placeOption {o : Option Outline} (h : ∀ c ∈ o, c.KeepsKeys) (scope : Span)
    {d : Draft} (hd : d.Keyed) : (placeOption scope o d).2.Keyed := by
  cases o with
  | none => exact hd
  | some c => exact h c rfl scope d hd

private theorem keepsKeys (o : Outline) : o.KeepsKeys := by
  -- Every case adds nodes behind those of its parts; only a class records its node.
  induction o using parts_induction with
  | h o ih =>
    intro scope d hd
    cases o with
    | word w => exact hd.add _ _ _
    | navigation _ receiver _ => exact ((ih receiver (by simp [parts]) scope d hd).add _ _ _).add _ _ _
    | argument _ _ inner | parenthesized _ inner | wrapper _ _ inner =>
      exact (ih inner (by simp [parts]) scope d hd).add _ _ _
    | binary _ _ lhs rhs =>
      have hlhs := ih lhs (by simp [parts]) scope d hd
      exact (ih rhs (by simp [parts]) scope _ hlhs).add _ _ _
    | lambda span body => exact (keyed_placeAll ih span hd).add _ _ _
    | classDecl span info body => exact (keyed_placeAll ih span hd).addClass _ _ _ info
    | group items => exact keyed_placeAll ih scope hd
    | call _ receiver callee args trailing =>
      have hreceiver := keyed_placeOption
        (fun c (hc : c ∈ receiver) => ih c (by simp [parts, Option.mem_def.mp hc])) scope hd
      have hcallee := hreceiver.add (.identifier callee.text) callee.span []
      have hargs := keyed_placeAll (fun c (hc : c ∈ args) => ih c (by simp [parts, hc])) scope hcallee
      exact (keyed_placeOption
        (fun c (hc : c ∈ trailing) => ih c (by simp [parts, Option.mem_def.mp hc])) scope hargs).add _ _ _
    | function span decl body =>
      cases decl with
      | none => exact keyed_placeAll ih span hd
      | some f => exact keyed_placeAll ih span (hd.declare (·.addFunction f.name f.type) rfl)
    | binding decl before initializer after =>
      have hbefore := keyed_placeAll (fun c (hc : c ∈ before) => ih c (by simp [parts, hc])) scope hd
      have hinit := keyed_placeOption
        (fun c (hc : c ∈ initializer) => ih c (by simp [parts, Option.mem_def.mp hc])) scope hbefore
      have hafter := keyed_placeAll (fun c (hc : c ∈ after) => ih c (by simp [parts, hc])) scope hinit
      cases decl with
      | none => exact hafter
      | some v => exact hafter.declare (·.addVariable ⟨v.name, v.type, _, scope⟩) rfl
    | package info => exact hd.declare ({ · with package := info }) rfl
    | imported info => exact hd.declare (·.addImport info) rfl

end Outline

private theorem layout_class_nodes (source : String) (root : Row) :
    ((layout source root).declarations.classes.map (·.1)).Nodup := by
  have hkeys : ∀ o ∈ outlineOf source.toList root, o.KeepsKeys := fun o _ => o.keepsKeys
  have hkeyed := Outline.keyed_placeAll hkeys ⟨0, Text.byteLength source.toList⟩ Draft.keyed_empty
  exact hkeyed.increasing.imp Nat.ne_of_lt

def Layout.file (l : Layout) (classes : List (Nat × ClassInfo)) (path : Path)
    (dependencies : List Dependency) : SourceFile :=
  ⟨path, l.tree, (l.declarations.listing classes).resolver, dependencies⟩

/-- In a file whose classes of one name declare the same, no answer depends on the order in which the
classes are looked through. -/
theorem layout_answers_in_any_order {source : String} {root : Row}
    (hd : (layout source root).declarations.Consistent) {classes classes' : List (Nat × ClassInfo)}
    (h : (layout source root).declarations.classes.Perm classes)
    (h' : (layout source root).declarations.classes.Perm classes') (path : Path)
    (dependencies : List Dependency) (id : Nat) :
    ((layout source root).file classes path dependencies).resolve id =
        ((layout source root).file classes' path dependencies).resolve id ∧
      ((layout source root).file classes path dependencies).supertypes id =
        ((layout source root).file classes' path dependencies).supertypes id ∧
      ((layout source root).file classes path dependencies).typeOf id =
        ((layout source root).file classes' path dependencies).typeOf id := by
  have hnodes := layout_class_nodes source root
  have hfile : (layout source root).file classes path dependencies =
      (layout source root).file classes' path dependencies := by
    rw [Layout.file, Layout.file, ← (Declarations.alike_of_perm hnodes hd h).resolver_eq,
      ← (Declarations.alike_of_perm hnodes hd h').resolver_eq]
  rw [hfile]
  exact ⟨rfl, rfl, rfl⟩

def sameStates : String := "class A \x7b class State \x7d\nclass B \x7b class State \x7d\nval s = State()\n"

def sameStatesRows : Row :=
  .over "source_file" 0 64 [
    .over "class_declaration" 0 23 [.over "identifier" 6 7 [],
      .over "class_body" 8 23 [.over "class_declaration" 10 21 [.over "identifier" 16 21 []]]],
    .over "class_declaration" 24 47 [.over "identifier" 30 31 [],
      .over "class_body" 32 47 [.over "class_declaration" 34 45 [.over "identifier" 40 45 []]]],
    .over "property_declaration" 48 63 [
      .over "variable_declaration" 52 53 [.over "identifier" 52 53 []], .token "=" 54 55,
      .over "call_expression" 56 63 [.over "identifier" 56 61 [], .over "value_arguments" 61 63 []]]]

theorem layout_answers_in_any_order_sameStates :
    (layout sameStates sameStatesRows).declarations.Consistent ∧
    (layout sameStates sameStatesRows).declarations.classes.map (·.2.name) =
      ["State", "A", "State", "B"] ∧
    ((layout sameStates sameStatesRows).file
        (layout sameStates sameStatesRows).declarations.classes.reverse ⟨"s.kt"⟩ []).resolve 5 =
      ((layout sameStates sameStatesRows).file
        (layout sameStates sameStatesRows).declarations.classes ⟨"s.kt"⟩ []).resolve 5 := by
  have hd : (layout sameStates sameStatesRows).declarations.Consistent := by
    unfold Declarations.Consistent
    decide +kernel
  exact ⟨hd, by decide +kernel,
    (layout_answers_in_any_order hd (List.reverse_perm _).symm (.refl _) ⟨"s.kt"⟩ [] 5).1⟩

/-- Two classes of one name, of which the one in view at the call is a view model. -/
def otherStates : String :=
  "import androidx.lifecycle.ViewModel\nclass A \x7b class State \x7d\n" ++
    "class B \x7b class State : ViewModel()\n val state = State() \x7d\n"

def otherStatesRows : Row :=
  .over "source_file" 0 119 [
    .over "import" 0 35 [],
    .over "class_declaration" 36 59 [.over "identifier" 42 43 [],
      .over "class_body" 44 59 [.over "class_declaration" 46 57 [.over "identifier" 52 57 []]]],
    .over "class_declaration" 60 118 [.over "identifier" 66 67 [],
      .over "class_body" 68 118 [
        .over "class_declaration" 70 95 [.over "identifier" 76 81 [],
          .over "delegation_specifiers" 84 95 [.over "delegation_specifier" 84 95 [
            .over "constructor_invocation" 84 95 [
              .over "user_type" 84 93 [.over "identifier" 84 93 []], .over "value_arguments" 93 95 []]]]],
        .over "property_declaration" 97 116 [
          .over "variable_declaration" 101 106 [.over "identifier" 101 106 []],
          .token "=" 107 108,
          .over "call_expression" 109 116 [.over "identifier" 109 114 [],
            .over "value_arguments" 114 116 []]]]]]

def otherStatesLayout : Layout := layout otherStates otherStatesRows

def otherStatesFile (classes : List (Nat × ClassInfo)) : SourceFile :=
  otherStatesLayout.file classes ⟨"s.kt"⟩ []

/-- The call is of a view model if the classes are looked through from the last to the first, and of no
view model the other way round. -/
theorem resolve_depends_on_order :
    otherStatesRows.WellPlaced otherStates.toList ∧
    otherStatesLayout.tree.shape 4 = .call none 3 [] none ∧
    otherStatesLayout.declarations.classes.Perm otherStatesLayout.declarations.classes.reverse ∧
    ((otherStatesFile otherStatesLayout.declarations.classes).resolve 4).map
      (Symbol.isSubtypeOf "androidx.lifecycle.ViewModel") = some false ∧
    ((otherStatesFile otherStatesLayout.declarations.classes.reverse).resolve 4).map
      (Symbol.isSubtypeOf "androidx.lifecycle.ViewModel") = some true ∧
    (otherStatesFile otherStatesLayout.declarations.classes).resolve 4 ≠
      (otherStatesFile otherStatesLayout.declarations.classes.reverse).resolve 4 := by
  have hfirst : ((otherStatesFile otherStatesLayout.declarations.classes).resolve 4).map
      (Symbol.isSubtypeOf "androidx.lifecycle.ViewModel") = some false := by
    decide +kernel
  have hlast : ((otherStatesFile otherStatesLayout.declarations.classes.reverse).resolve 4).map
      (Symbol.isSubtypeOf "androidx.lifecycle.ViewModel") = some true := by
    decide +kernel
  refine ⟨by decide +kernel, by decide +kernel, (List.reverse_perm _).symm, hfirst, hlast, ?_⟩
  intro hsame
  rw [hsame, hlast] at hfirst
  cases hfirst

end CoroutineCheck.Kotlin

import CoroutineCheck.Proofs.Kotlin.ClassOrder
import CoroutineCheck.Proofs.Symbol.Subtypes
/-!
# The declared hierarchy

A type text stands for a type of the library, for a class of the file or for no more than its name.
The classes of the file and the table of the library thus span a graph: from a class to what its
supertypes stand for, and from a library type to the types above it. The symbol of a class holds
just the types that can be reached in that graph, down to a bounded number of steps out of the file's
classes.
-/
namespace CoroutineCheck

namespace Symbol

private theorem isSubtypeOf_step {name : String} {s : Symbol} :
    isSubtypeOf name s = true ↔
      s.qualifiedName = name ∨ ∃ u ∈ s.supertypes, isSubtypeOf name u = true := by
  simp only [isSubtypeOf_iff]
  exact exists_extends_iff

end Symbol

namespace Kotlin

/-! ## The library's table -/

namespace Library

def types : List Symbol := (entries.map (·.symbol)).filter (·.isType)

private theorem types_distinct : (types.map (·.qualifiedName)).Nodup := by decide +kernel

/-- The table lists every type above one of its types. -/
private theorem mem_types_of_supertype {s u : Symbol} (hs : s ∈ types) (hu : u ∈ s.supertypes) :
    u ∈ types := by
  have habove : types.flatMap Symbol.supertypes =
      [context, element, scope, element, job, job, abstractElement, element, element, element, scope,
        lifecycleOwner, lifecycleOwner] := rfl
  have hcontext : context ∈ types := List.mem_of_getElem? (i := 0) rfl
  have helement : element ∈ types := List.mem_of_getElem? (i := 1) rfl
  have habstract : abstractElement ∈ types := List.mem_of_getElem? (i := 2) rfl
  have hscope : scope ∈ types := List.mem_of_getElem? (i := 3) rfl
  have hjob : job ∈ types := List.mem_of_getElem? (i := 5) rfl
  have howner : lifecycleOwner ∈ types := List.mem_of_getElem? (i := 13) rfl
  have hmem : u ∈ types.flatMap Symbol.supertypes := List.mem_flatMap.mpr ⟨s, hs, hu⟩
  rw [habove] at hmem
  simp only [List.mem_cons, List.not_mem_nil, or_false] at hmem
  rcases hmem with rfl | rfl | rfl | rfl | rfl | rfl | rfl | rfl | rfl | rfl | rfl | rfl | rfl <;>
    assumption

theorem find?_named_spec {p : Symbol → Bool} {name : String} {e : Entry}
    (h : (named name).find? (fun e => p e.symbol) = some e) :
    e.symbol ∈ (entries.map (·.symbol)).filter p ∧ e.symbol.qualifiedName = name := by
  obtain ⟨hmem, hname⟩ := List.mem_filter.mp (List.mem_of_find?_eq_some h)
  have hp : p e.symbol = true := by simpa using List.find?_some h
  exact ⟨List.mem_filter.mpr ⟨List.mem_map_of_mem hmem, hp⟩, beq_iff_eq.mp hname⟩

theorem find?_named_of_mem {p : Symbol → Bool}
    (hdistinct : (((entries.map (·.symbol)).filter p).map (·.qualifiedName)).Nodup) {s : Symbol}
    (hs : s ∈ (entries.map (·.symbol)).filter p) :
    ∃ e, (named s.qualifiedName).find? (fun e => p e.symbol) = some e ∧ e.symbol = s := by
  obtain ⟨hmem, hp⟩ := List.mem_filter.mp hs
  obtain ⟨e, he, rfl⟩ := List.mem_map.mp hmem
  have hnamed : e ∈ named e.symbol.qualifiedName := List.mem_filter.mpr ⟨he, by simp⟩
  obtain ⟨e', he'⟩ : ∃ e', (named e.symbol.qualifiedName).find? (fun e => p e.symbol) = some e' :=
    Option.isSome_iff_exists.mp (List.find?_isSome.mpr ⟨e, hnamed, hp⟩)
  obtain ⟨hs', hname⟩ := find?_named_spec he'
  exact ⟨e', he', List.inj_on_of_nodup_map hdistinct hs' hs hname⟩

theorem typeNamed?_spec {name : String} {e : Entry} (h : typeNamed? name = some e) :
    e.symbol ∈ types ∧ e.symbol.qualifiedName = name :=
  find?_named_spec h

private theorem typeNamed?_of_mem {s : Symbol} (hs : s ∈ types) :
    ∃ e, typeNamed? s.qualifiedName = some e ∧ e.symbol = s :=
  find?_named_of_mem types_distinct hs

private theorem typeNamed?_eq_none {name : String} (h : ∀ s ∈ types, s.qualifiedName ≠ name) :
    typeNamed? name = none := by
  apply Option.eq_none_iff_forall_not_mem.mpr
  intro e he
  obtain ⟨hmem, hname⟩ := typeNamed?_spec he
  exact h _ hmem hname

end Library

/-! ## What type texts stand for -/

/-- What a type text can stand for: a class of the file, a type of the library, or a name of which
nothing else is known. -/
inductive Target where
  | own (c : ClassInfo)
  | library (s : Symbol)
  | bare (name : String)

namespace Target

def name (d : Declarations) : Target → String
  | own c => d.qualify c.name
  | library s => s.qualifiedName
  | bare q => q

def symbol (d : Declarations) (above : String → Option Symbol) : Target → Symbol
  | own c => d.classSymbol above c
  | library s => s
  | bare q => guess q .type

private theorem symbol_qualifiedName (d : Declarations) (above : String → Option Symbol) (u : Target) :
    (u.symbol d above).qualifiedName = u.name d := by
  cases u <;> rfl

end Target

namespace Declarations

theorem qualifiedName_classSymbol (d : Declarations) (above : String → Option Symbol) (c : ClassInfo) :
    (d.classSymbol above c).qualifiedName = d.qualify c.name := rfl

theorem isType_classSymbol (d : Declarations) (above : String → Option Symbol) (c : ClassInfo) :
    (d.classSymbol above c).isType = true := by
  cases hobject : c.isObject <;> simp [classSymbol, hobject, Symbol.isType, Symbol.named, Symbol.kind]

end Declarations

def First {α : Type} (p : α → Prop) (xs : List α) (x : α) : Prop :=
  ∃ front back, xs = front ++ x :: back ∧ p x ∧ ∀ y ∈ front, ¬ p y

namespace First

variable {α β : Type} {p q : α → Prop} {xs : List α} {x : α}

theorem holds (h : First p xs x) : p x := by
  obtain ⟨_, _, _, hx, _⟩ := h
  exact hx

theorem mem (h : First p xs x) : x ∈ xs := by
  obtain ⟨front, back, rfl, _, _⟩ := h
  simp

theorem congr (hpq : ∀ y, p y ↔ q y) (h : First p xs x) : First q xs x := by
  obtain ⟨front, back, hxs, hx, hfront⟩ := h
  exact ⟨front, back, hxs, (hpq x).mp hx, fun y hy hq => hfront y hy ((hpq y).mpr hq)⟩

theorem find?_eq_some_iff {p : α → Bool} : xs.find? p = some x ↔ First (p · = true) xs x := by
  rw [List.find?_eq_some_iff_append]
  constructor
  · rintro ⟨hx, front, back, rfl, hfront⟩
    exact ⟨front, back, rfl, hx, fun y hy => by simpa using hfront y hy⟩
  · rintro ⟨front, back, rfl, hx, hfront⟩
    exact ⟨hx, front, back, rfl, fun y hy => by simpa using hfront y hy⟩

/-- The answer of a search among some items is that of the first of them that has one. -/
theorem findSome?_filter {p : α → Bool} {g : α → Option β} {b : β}
    (hx : First (fun y => p y = true ∧ g y ≠ none) xs x) (hb : g x = some b) :
    (xs.filter p).findSome? g = some b := by
  obtain ⟨front, back, rfl, hholds, hfront⟩ := hx
  rw [List.filter_append, List.filter_cons, if_pos hholds.1]
  apply List.findSome?_eq_some_iff.mpr
  refine ⟨_, x, _, rfl, hb, ?_⟩
  intro y hy
  obtain ⟨hy, hp⟩ := List.mem_filter.mp hy
  exact Classical.not_not.mp fun hne => hfront y hy ⟨hp, hne⟩

end First

theorem exists_first {α : Type} {p : α → Prop} {xs : List α} (h : ∃ x ∈ xs, p x) :
    ∃ x, First p xs x := by
  induction xs with
  | nil => simp at h
  | cons a xs ih =>
    by_cases ha : p a
    · exact ⟨a, [], xs, rfl, ha, by simp⟩
    · have hrest : ∃ x ∈ xs, p x := by simpa [ha] using h
      obtain ⟨x, front, back, rfl, hx, hfront⟩ := ih hrest
      exact ⟨x, a :: front, back, rfl, hx, List.forall_mem_cons.mpr ⟨ha, hfront⟩⟩

namespace Declarations

/-- A declaration with a qualified name: a type of the library, else a class of the file. -/
inductive Declares (d : Declarations) (q : String) : Target → Prop where
  | library {s : Symbol} : s ∈ Library.types → s.qualifiedName = q → Declares d q (.library s)
  | own {node : Nat} {c : ClassInfo} : (∀ s ∈ Library.types, s.qualifiedName ≠ q) →
      (node, c) ∈ d.classes → d.qualify c.name = q → Declares d q (.own c)

/-- What a qualified name stands for: a declaration, or itself if there is none. -/
inductive Names (d : Declarations) (q : String) : Target → Prop where
  | declared {u : Target} : d.Declares q u → Names d q u
  | bare : (∀ u, ¬ d.Declares q u) → Names d q (.bare q)

def Unimported (d : Declarations) (text : String) : Prop :=
  '.' ∉ text.toList ∧ ∀ i ∈ d.imports, i.visibleName? ≠ some text

/-- An import of a whole package that declares a name. -/
def Supplies (d : Declarations) (text : String) (i : Import) : Prop :=
  i.star = true ∧ ∃ u, d.Declares (i.path ++ "." ++ text) u

/-- What a type text stands for: a dotted name for itself, and a simple name for an explicit import,
else for a class of the file, else for what the first star import supplies, else for itself. -/
inductive Denotes (d : Declarations) (text : String) : Target → Prop where
  | dotted {u : Target} : '.' ∈ text.toList → d.Names text u → Denotes d text u
  | imported {i : Import} {u : Target} : '.' ∉ text.toList →
      First (·.visibleName? = some text) d.imports i → d.Names i.path u → Denotes d text u
  | own {node : Nat} {c : ClassInfo} : d.Unimported text → (node, c) ∈ d.classes → c.name = text →
      Denotes d text (.own c)
  | starred {i : Import} {u : Target} : d.Unimported text → (∀ c ∈ d.classes, c.2.name ≠ text) →
      First (d.Supplies text) d.imports i → d.Declares (i.path ++ "." ++ text) u → Denotes d text u
  | bare : d.Unimported text → (∀ c ∈ d.classes, c.2.name ≠ text) →
      (∀ i ∈ d.imports, ¬ d.Supplies text i) → Denotes d text (.bare text)

variable {d : Declarations}

theorem Declares.name_eq {q : String} {u : Target} (h : d.Declares q u) : u.name d = q := by
  cases h with
  | library _ hname => exact hname
  | own _ _ hname => exact hname

theorem Names.name_eq {q : String} {u : Target} (h : d.Names q u) : u.name d = q := by
  cases h with
  | declared h => exact h.name_eq
  | bare => rfl

private theorem exists_names (d : Declarations) (q : String) : ∃ u, d.Names q u := by
  by_cases h : ∃ u, d.Declares q u
  · obtain ⟨u, hu⟩ := h
    exact ⟨u, .declared hu⟩
  · exact ⟨.bare q, .bare (not_exists.mp h)⟩

private theorem exists_denotes (d : Declarations) (text : String) : ∃ u, d.Denotes text u := by
  by_cases hdot : '.' ∈ text.toList
  · obtain ⟨u, hu⟩ := d.exists_names text
    exact ⟨u, .dotted hdot hu⟩
  by_cases himport : ∃ i ∈ d.imports, i.visibleName? = some text
  · obtain ⟨i, hi⟩ := exists_first himport
    obtain ⟨u, hu⟩ := d.exists_names i.path
    exact ⟨u, .imported hdot hi hu⟩
  have hun : d.Unimported text := ⟨hdot, fun i hi heq => himport ⟨i, hi, heq⟩⟩
  by_cases hclass : ∃ c ∈ d.classes, c.2.name = text
  · obtain ⟨c, hc, hname⟩ := hclass
    exact ⟨.own c.2, .own hun hc hname⟩
  have hno : ∀ c ∈ d.classes, c.2.name ≠ text := fun c hc heq => hclass ⟨c, hc, heq⟩
  by_cases hstar : ∃ i ∈ d.imports, d.Supplies text i
  · obtain ⟨i, hi⟩ := exists_first hstar
    obtain ⟨_, u, hu⟩ := hi.holds
    exact ⟨u, .starred hun hno hi hu⟩
  · exact ⟨.bare text, .bare hun hno fun i hi hs => hstar ⟨i, hi, hs⟩⟩

private theorem Denotes.mem_types {text : String} {s : Symbol} (h : d.Denotes text (.library s)) :
    s ∈ Library.types := by
  have hdeclares {q : String} (h : d.Declares q (.library s)) : s ∈ Library.types := by
    cases h with
    | library hs _ => exact hs
  have hnames {q : String} (h : d.Names q (.library s)) : s ∈ Library.types := by
    cases h with
    | declared h => exact hdeclares h
  cases h with
  | dotted _ h => exact hnames h
  | imported _ _ h => exact hnames h
  | starred _ _ _ h => exact hdeclares h

/-! ## The resolver follows what texts stand for -/

def DistinctNames (d : Declarations) : Prop := (d.classes.map (·.2.name)).Nodup

variable {above : String → Option Symbol}

private theorem DistinctNames.find?_eq (hd : d.DistinctNames) {p : Nat × ClassInfo → Bool}
    {c : Nat × ClassInfo}
    (hc : c ∈ d.classes) (hp : p c = true) (hname : ∀ c', p c' = true → c'.2.name = c.2.name) :
    d.classes.find? p = some c := by
  obtain ⟨c', hfind⟩ : ∃ c', d.classes.find? p = some c' :=
    Option.isSome_iff_exists.mp (List.find?_isSome.mpr ⟨c, hc, hp⟩)
  have hc' := List.mem_of_find?_eq_some hfind
  rw [hfind, List.inj_on_of_nodup_map hd hc' hc (hname c' (List.find?_some hfind))]

private theorem classNamed?_eq (hd : d.DistinctNames) {node : Nat} {c : ClassInfo}
    (hc : (node, c) ∈ d.classes) :
    d.classNamed? c.name = some c := by
  have hfind : d.classes.find? (·.2.name == c.name) = some (node, c) :=
    hd.find?_eq hc (by simp) fun c' h => beq_iff_eq.mp h
  rw [classNamed?, hfind]
  rfl

theorem classNamed?_eq_none {name : String} (h : ∀ c ∈ d.classes, c.2.name ≠ name) :
    d.classNamed? name = none := by
  have hfind : d.classes.find? (·.2.name == name) = none := by
    simpa [List.find?_eq_none] using h
  rw [classNamed?, hfind]
  rfl

private theorem qualified?_of_declares (hd : d.DistinctNames) {q : String} {u : Target}
    (h : d.Declares q u) : d.qualified? above q .type = some (u.symbol d above) := by
  cases h with
  | library hs hname =>
    obtain ⟨e, he, rfl⟩ := Library.typeNamed?_of_mem hs
    rw [hname] at he
    simp only [qualified?, libraryEntry?, he, Target.symbol]
  | @own node c hlibrary hc hname =>
    have hfind : d.classes.find? (d.qualify ·.2.name == q) = some (node, c) := by
      refine hd.find?_eq hc (by simpa using hname) fun c' h => ?_
      exact d.qualify_injective ((beq_iff_eq.mp h).trans hname.symm)
    simp only [qualified?, libraryEntry?, Library.typeNamed?_eq_none hlibrary, hfind, Option.map_some,
      Target.symbol]

private theorem qualified?_of_not_declares {q : String} (h : ∀ u, ¬ d.Declares q u) :
    d.qualified? above q .type = none := by
  have hlibrary : ∀ s ∈ Library.types, s.qualifiedName ≠ q :=
    fun s hs hname => h _ (.library hs hname)
  have hfind : d.classes.find? (d.qualify ·.2.name == q) = none := by
    apply List.find?_eq_none.mpr
    intro c hc hname
    exact h _ (.own hlibrary hc (beq_iff_eq.mp hname))
  simp only [qualified?, libraryEntry?, Library.typeNamed?_eq_none hlibrary, hfind, Option.map_none]

private theorem qualified?_of_names (hd : d.DistinctNames) {q : String} {u : Target} (h : d.Names q u) :
    (d.qualified? above q .type).getD (guess q .type) = u.symbol d above := by
  cases h with
  | declared h => rw [qualified?_of_declares hd h, Option.getD_some]
  | bare h => rw [qualified?_of_not_declares h, Option.getD_none, Target.symbol]

theorem find?_visible_eq_some {text : String} {i : Import}
    (h : First (·.visibleName? = some text) d.imports i) :
    d.imports.find? (·.visibleName? == some text) = some i :=
  First.find?_eq_some_iff.mpr (h.congr fun _ => beq_iff_eq.symm)

private theorem Unimported.find?_visible {text : String} (h : d.Unimported text) :
    d.imports.find? (·.visibleName? == some text) = none := by
  simpa [List.find?_eq_none] using h.2

theorem Unimported.simple?_eq {text : String} (h : d.Unimported text)
    (hno : ∀ c ∈ d.classes, c.2.name ≠ text) :
    d.simple? above text .type =
      (d.imports.filter (·.star)).findSome? fun i => d.qualified? above (i.path ++ "." ++ text) .type := by
  rw [simple?, h.find?_visible, classNamed?_eq_none hno]
  rfl

private theorem supplies_iff (hd : d.DistinctNames) {text : String} {i : Import} : d.Supplies text i ↔
    i.star = true ∧ d.qualified? above (i.path ++ "." ++ text) .type ≠ none := by
  refine and_congr_right fun _ => ⟨?_, ?_⟩
  · rintro ⟨u, hu⟩
    simp [qualified?_of_declares hd hu]
  · intro hne
    exact Classical.not_not.mp fun hno => hne (qualified?_of_not_declares (not_exists.mp hno))

private theorem findSome?_supplies (hd : d.DistinctNames) {text : String} {i : Import} {u : Target}
    (hi : First (d.Supplies text) d.imports i) (hu : d.Declares (i.path ++ "." ++ text) u) :
    ((d.imports.filter (·.star)).findSome? fun j => d.qualified? above (j.path ++ "." ++ text) .type) =
      some (u.symbol d above) :=
  (hi.congr fun _ => supplies_iff hd).findSome?_filter (qualified?_of_declares hd hu)

private theorem findSome?_not_supplies {text : String} (h : ∀ i ∈ d.imports, ¬ d.Supplies text i) :
    ((d.imports.filter (·.star)).findSome? fun j => d.qualified? above (j.path ++ "." ++ text) .type) =
      none := by
  apply List.findSome?_eq_none_iff.mpr
  intro j hj
  obtain ⟨hj, hstar⟩ := List.mem_filter.mp hj
  exact qualified?_of_not_declares fun v hv => h j hj ⟨hstar, v, hv⟩

/-- On a level that is still resolved, the type of a text is the symbol of what the text stands for. -/
theorem type?_of_denotes (hd : d.DistinctNames) {text : String} {u : Target} (h : d.Denotes text u)
    (n : Nat) : (d.type? (n + 1) text).getD (guess text .type) = u.symbol d (d.type? n) := by
  cases h with
  | dotted hdot hu =>
    rw [type?, if_pos (List.contains_iff_mem.mpr hdot)]
    exact qualified?_of_names hd hu
  | imported hdot hi hu =>
    rw [type?, if_neg (by simpa using hdot), simple?, find?_visible_eq_some hi]
    exact qualified?_of_names hd hu
  | own hun hc hname =>
    subst hname
    rw [type?, if_neg (by simpa using hun.1), simple?, hun.find?_visible, classNamed?_eq hd hc]
    rfl
  | starred hun hno hi hu =>
    rw [type?, if_neg (by simpa using hun.1), hun.simple?_eq hno, findSome?_supplies hd hi hu]
    rfl
  | bare hun hno hnone =>
    rw [type?, if_neg (by simpa using hun.1), hun.simple?_eq hno, findSome?_not_supplies hnone]
    rfl

/-! ## Paths -/

/-- A path in the declared hierarchy, with the number of steps out of classes of the file. A library
type leads to library types only, so these steps come first. -/
inductive Path (d : Declarations) : Nat → Target → Target → Prop where
  | refl {u : Target} : Path d 0 u u
  | own {n : Nat} {c : ClassInfo} {text : String} {u v : Target} : text ∈ c.supertypes →
      d.Denotes text u → Path d n u v → Path d (n + 1) (.own c) v
  | library {n : Nat} {s u : Symbol} {v : Target} : s ∈ Library.types → u ∈ s.supertypes →
      Path d n (.library u) v → Path d n (.library s) v

private theorem path_of_extends {s u : Symbol} (hs : s ∈ Library.types) (h : s.Extends u) :
    d.Path 0 (.library s) (.library u) := by
  induction h using Relation.ReflTransGen.head_induction_on with
  | refl => exact .refl
  | head hstep _ ih => exact .library hs hstep (ih (Library.mem_types_of_supertype hs hstep))

/-- A dotted name above the symbol of a class can be reached from the class. On the last level the
name is that of a text that was taken at its word, and being dotted the text names it. -/
theorem path_of_isSubtypeOf (hd : d.DistinctNames) {q : String} (hq : '.' ∈ q.toList) (n : Nat)
    (c : ClassInfo) (h : Symbol.isSubtypeOf q (d.classSymbol (d.type? n) c) = true) :
    ∃ k u, d.Path k (.own c) u ∧ u.name d = q := by
  induction n generalizing c with
  | zero =>
    rcases Symbol.isSubtypeOf_step.mp h with hself | ⟨s, hs, hsub⟩
    · exact ⟨0, .own c, .refl, hself⟩
    obtain ⟨text, htext, rfl⟩ := List.mem_map.mp hs
    have hname : text = q := by
      rcases Symbol.isSubtypeOf_step.mp hsub with hname | ⟨u, hu, _⟩
      · exact hname
      · cases hu
    subst hname
    obtain ⟨u, hu⟩ := d.exists_names text
    exact ⟨1, u, .own htext (.dotted hq hu) .refl, hu.name_eq⟩
  | succ n ih =>
    rcases Symbol.isSubtypeOf_step.mp h with hself | ⟨s, hs, hsub⟩
    · exact ⟨0, .own c, .refl, hself⟩
    obtain ⟨text, htext, rfl⟩ := List.mem_map.mp hs
    obtain ⟨u, hu⟩ := d.exists_denotes text
    rw [type?_of_denotes hd hu] at hsub
    -- Only a class of the file has levels below it; the library's table is complete in itself.
    have hpath : ∃ k v, d.Path k u v ∧ v.name d = q := by
      cases u with
      | own c' => exact ih c' hsub
      | library s =>
        obtain ⟨v, hv, hname⟩ := (Symbol.isSubtypeOf_iff q s).mp hsub
        exact ⟨0, .library v, path_of_extends hu.mem_types hv, hname⟩
      | bare name =>
        rcases Symbol.isSubtypeOf_step.mp hsub with hname | ⟨v, hv, _⟩
        · exact ⟨0, .bare name, .refl, hname⟩
        · cases hv
    obtain ⟨k, v, hv, hname⟩ := hpath
    exact ⟨k + 1, v, .own htext hu hv, hname⟩

/-- What a path reaches is above the symbol, if there are as many levels as steps out of the file's
classes. -/
theorem isSubtypeOf_of_path (hd : d.DistinctNames) {k : Nat} {u v : Target} (h : d.Path k u v) {n : Nat}
    (hn : k ≤ n) : Symbol.isSubtypeOf (v.name d) (u.symbol d (d.type? n)) = true := by
  induction h generalizing n with
  | refl => exact Symbol.isSubtypeOf_step.mpr (.inl (Target.symbol_qualifiedName d _ _))
  | @own k c text u v htext hu _ ih =>
    obtain ⟨m, rfl⟩ : ∃ m, n = m + 1 := Nat.exists_eq_succ_of_ne_zero (by omega)
    apply Symbol.isSubtypeOf_step.mpr
    refine .inr ⟨u.symbol d (d.type? m), ?_, ih (by omega)⟩
    exact List.mem_map.mpr ⟨text, htext, type?_of_denotes hd hu m⟩
  | library _ hu _ ih => exact Symbol.isSubtypeOf_step.mpr (.inr ⟨_, hu, ih hn⟩)

/-- The greatest depth of a look-up that is still resolved, counted from 0. -/
def maxDepth : Nat := maxLevels - 1

example : maxDepth = 8 := rfl

/-- A class with a node is resolved, and the types above its symbol are those that can be reached in the
declared hierarchy: every dotted name above the symbol can be reached, and everything reached with at
most `maxDepth` steps out of classes of the file is above the symbol. -/
theorem resolve_class_hierarchy {d : Declarations} (hd : d.DistinctNames) {t : Tree} {node : Nat}
    {name : String} (hshape : t.shape node = .classDecl name) {c : ClassInfo}
    (hc : d.classAt? node = some c) :
    ∃ s, d.resolver.resolve t node = some s ∧ ∀ q : String, '.' ∈ q.toList →
      (Symbol.isSubtypeOf q s = true → ∃ n u, d.Path n (.own c) u ∧ u.name d = q) ∧
      ∀ n u, n ≤ maxDepth → d.Path n (.own c) u → u.name d = q → Symbol.isSubtypeOf q s = true := by
  refine ⟨d.classSymbol (d.type? maxDepth) c, ?_, fun q hq => ⟨path_of_isSubtypeOf hd hq _ c, ?_⟩⟩
  · simp only [resolver, resolve?, hshape, hc, Option.map_some]
    rfl
  · rintro n u hn hpath rfl
    exact isSubtypeOf_of_path hd hpath hn

def cyclicModels : String := "class A : B()\nclass B : A(), androidx.lifecycle.ViewModel()\n"

def cyclicModelsRows : Row :=
  .over "source_file" 0 60 [
    .over "class_declaration" 0 13 [.over "identifier" 6 7 [],
      .over "delegation_specifiers" 10 13 [.over "delegation_specifier" 10 13 [
        .over "constructor_invocation" 10 13 [.over "user_type" 10 11 []]]]],
    .over "class_declaration" 14 59 [.over "identifier" 20 21 [],
      .over "delegation_specifiers" 24 59 [
        .over "delegation_specifier" 24 27 [.over "constructor_invocation" 24 27 [
          .over "user_type" 24 25 []]],
        .over "delegation_specifier" 29 59 [.over "constructor_invocation" 29 59 [
          .over "user_type" 29 57 []]]]]]

def cyclicLayout : Layout := layout cyclicModels cyclicModelsRows

def modelA : ClassInfo := ⟨"A", false, ["B"]⟩

def modelB : ClassInfo := ⟨"B", false, ["A", "androidx.lifecycle.ViewModel"]⟩

theorem resolve_class_hierarchy_cyclicModels :
    cyclicLayout.declarations.DistinctNames ∧ cyclicLayout.tree.shape 0 = .classDecl "A" ∧
    cyclicLayout.declarations.classAt? 0 = some modelA ∧
    ∃ s, cyclicLayout.declarations.resolver.resolve cyclicLayout.tree 0 = some s ∧
      Symbol.isSubtypeOf "androidx.lifecycle.ViewModel" s = true := by
  have hd : cyclicLayout.declarations.DistinctNames := by
    unfold DistinctNames
    decide +kernel
  have hshape : cyclicLayout.tree.shape 0 = .classDecl "A" := by decide +kernel
  have hclass : cyclicLayout.declarations.classAt? 0 = some modelA := by decide +kernel
  have hmodel : Symbol.named "androidx.lifecycle.ViewModel" .classType [] ∈ Library.types :=
    List.mem_of_getElem? (i := 14) rfl
  have hmember : (1, modelB) ∈ cyclicLayout.declarations.classes := by decide +kernel
  have hb : cyclicLayout.declarations.Denotes "B" (.own modelB) :=
    .own (by unfold Unimported; decide +kernel) hmember rfl
  have hpath : cyclicLayout.declarations.Path 2 (.own modelA)
      (.library (.named "androidx.lifecycle.ViewModel" .classType [])) :=
    .own (by decide) hb (.own (by decide) (.dotted (by decide) (.declared (.library hmodel rfl))) .refl)
  obtain ⟨s, hs, habove⟩ := resolve_class_hierarchy hd hshape hclass
  exact ⟨hd, hshape, hclass, s, hs, (habove _ (by decide)).2 2 _ (by decide) hpath rfl⟩

end Declarations
end Kotlin
end CoroutineCheck

import CoroutineCheck.Proofs.Kotlin.Words
/-!
# References in the tree

The names in the outline of a row are those in the outlines of the rows that it passes on. So the
identifiers of a file's tree are the identifier rows in view from the root, each with its name and
span, and a walk from the root visits them all. Where a row does not pass on a row below it, the
references there are lost.
-/
namespace CoroutineCheck.Kotlin

open Reading Outline

namespace Outline

inductive Holds : Outline → Word → Prop where
  | here {w : Word} : Holds (word w) w
  | inside {o c : Outline} {w : Word} : c ∈ o.parts → Holds c w → Holds o w

variable {o : Outline} {w : Word}

private theorem holds_iff : o.Holds w ↔ o = word w ∨ ∃ c ∈ o.parts, c.Holds w := by
  constructor
  · intro h
    cases h with
    | here => exact .inl rfl
    | inside hc h => exact .inr ⟨_, hc, h⟩
  · rintro (rfl | ⟨c, hc, h⟩)
    · exact .here
    · exact .inside hc h

@[simp] private theorem holds_word_iff {v : Word} : (word v).Holds w ↔ v = w := by
  rw [holds_iff]
  simp [parts]

private theorem mem_words_iff : w ∈ o.words ↔ o.Holds w := by
  induction o using parts_induction with
  | h o ih =>
    have hname : o.name? = some w ↔ o = word w := by cases o <;> simp [name?]
    rw [words_eq, holds_iff, List.mem_append, List.mem_flatMap, Option.mem_toList, hname, or_comm]
    exact or_congr_right (exists_congr fun c => and_congr_right (ih c))

end Outline

private theorem holds_outline_iff {source : List Char} {r : Reading} {w : Word}
    (h : Throughout (Genuine source) r) (hid : r.isIdentifier = false) :
    r.outline.Holds w ↔ ∃ c ∈ r.passes source, c.outline.Holds w := by
  rw [← mem_words_iff, words_outline h hid, List.mem_flatMap]
  simp only [mem_words_iff]

/-- The rows in view from a row: those that are passed on, from one to the next. -/
def Reading.Views (source : List Char) : (top r : Reading) → Prop :=
  Relation.ReflTransGen fun p c => c ∈ p.passes source

section Views

variable {P : Reading → Prop} {source : List Char} {rows : List Reading}

private theorem throughout_callRows (h : ∀ r ∈ rows, Throughout P r) :
    ∀ c ∈ callRows rows, Throughout P c := by
  intro c hc
  unfold callRows at hc
  split at hc
  · simp at hc
  case h_2 head rest hparts =>
    have hpart {part : Reading} (hp : part ∈ head :: rest) : Throughout P part :=
      throughout_callPart h (hparts ▸ hp)
    simp only [List.mem_cons, List.mem_append, Option.mem_toList] at hc
    rcases hc with rfl | hc | hc
    · exact hpart (by simp)
    · unfold argumentValuesIn at hc
      cases hf : rest.find? (·.kind == "value_arguments") with
      | none => simp [hf] at hc
      | some list =>
        rw [hf] at hc
        obtain ⟨a, ha, hv⟩ := List.mem_filterMap.mp hc
        have hlist := hpart (List.mem_cons_of_mem head (List.mem_of_find?_eq_some hf))
        have harg := hlist.inside a (mem_of_mem_namedOf (List.mem_filter.mp ha).1)
        exact harg.inside c (mem_of_mem_namedOf (List.mem_of_getLast? hv))
    · exact hpart (List.mem_cons_of_mem head (List.mem_of_find?_eq_some hc))

private theorem ReadsAs.throughout_passed {span : Span} {call : Option Outline} {kind : String} {o : Outline}
    {passed : List Reading} (hr : ReadsAs source span call rows kind o passed)
    (h : ∀ r ∈ rows, Throughout P r) : ∀ c ∈ passed, Throughout P c := by
  cases hr with
  | word | nothing | package | imported => simp
  | group | lambda => exact fun c hc => h c (mem_of_mem_namedOf hc)
  | call => exact throughout_callRows h
  | navigation hn =>
    obtain ⟨hreceiver, hselector⟩ := throughout_navigation h hn
    simp [hreceiver, hselector]
  | sum hs =>
    obtain ⟨hl, hr⟩ := mem_of_operationSides? hs
    simp [h _ hl, h _ hr]
  | parenthesized hi => simp [h _ (mem_of_mem_namedOf (List.mem_of_head? hi))]
  | annotated hf => simp [(firstIn?_spec h hf).2]
  | classDecl =>
    intro c hc
    exact h c (mem_of_mem_namedOf (List.mem_of_mem_eraseP (List.mem_filter.mp hc).1))
  | function => exact fun c hc => h c (List.mem_of_mem_eraseP (mem_of_mem_namedOf hc))
  | property => exact fun c hc => h c (List.mem_filter.mp hc).1
  | parameter => exact fun c hc => h c (mem_of_mem_namedOf (List.mem_of_mem_eraseP hc))

theorem throughout_passes {r : Reading} (h : ∀ c ∈ r.children, Throughout P c) :
    ∀ c ∈ r.passes source, Throughout P c :=
  (readRow_readsAs source r.kind r.span r.call r.children).throughout_passed h

theorem Reading.sizeOf_lt_of_mem {r c : Reading} (hc : c ∈ r.children) : sizeOf c < sizeOf r := by
  cases r with
  | mk kind named span side call outline children =>
    have hlt : sizeOf c < sizeOf children := List.sizeOf_lt_of_mem hc
    rw [Reading.mk.sizeOf_spec]
    omega

private theorem throughout_sizeOf_le (r : Reading) : Throughout (fun c => sizeOf c ≤ sizeOf r) r := by
  induction hk : sizeOf r using Nat.strongRecOn generalizing r with
  | ind k ih =>
    subst hk
    refine .intro (Nat.le_refl _) fun c hc => ?_
    have hlt := sizeOf_lt_of_mem hc
    exact (ih (sizeOf c) hlt c rfl).imp fun d hd => by omega

theorem sizeOf_lt_of_mem_passes {r c : Reading} (hc : c ∈ r.passes source) : sizeOf c < sizeOf r := by
  refine (throughout_passes (P := fun d => sizeOf d < sizeOf r) ?_ c hc).here
  intro d hd
  have hlt := sizeOf_lt_of_mem hd
  exact (throughout_sizeOf_le d).imp fun e he => by omega

private theorem passes_of_isIdentifier {r : Reading} (h : r.isIdentifier = true) : r.passes source = [] := by
  have hkind : identifierKinds.contains r.kind = true := h
  unfold passes passedOn
  exact if_pos (by rw [hkind]; rfl)

/-- The names in the outline of a row are those of the identifiers in view. -/
theorem holds_iff_views {r : Reading} (h : Throughout (Genuine source) r) {w : Word} :
    r.outline.Holds w ↔
      ∃ c, r.Views source c ∧ c.isIdentifier = true ∧ c.word source = w := by
  induction hk : sizeOf r using Nat.strongRecOn generalizing r with
  | ind k ih =>
    subst hk
    cases hid : r.isIdentifier with
    | true =>
      rw [h.here.outline_of_isIdentifier hid, holds_word_iff]
      constructor
      · exact fun hw => ⟨r, .refl, hid, hw⟩
      · rintro ⟨c, hv, _, hw⟩
        rcases Relation.ReflTransGen.cases_head hv with rfl | ⟨d, hd, _⟩
        · exact hw
        · rw [passes_of_isIdentifier hid] at hd
          cases hd
    | false =>
      rw [holds_outline_iff h hid]
      constructor
      · rintro ⟨c, hc, hw⟩
        have hbelow := throughout_passes h.inside c hc
        obtain ⟨d, hv, hd⟩ := (ih (sizeOf c) (sizeOf_lt_of_mem_passes hc) hbelow rfl).mp hw
        exact ⟨d, .head hc hv, hd⟩
      · rintro ⟨d, hv, hd, hw⟩
        rcases Relation.ReflTransGen.cases_head hv with rfl | ⟨c, hc, hv⟩
        · rw [hid] at hd
          cases hd
        · have hbelow := throughout_passes h.inside c hc
          exact ⟨c, hc, (ih (sizeOf c) (sizeOf_lt_of_mem_passes hc) hbelow rfl).mpr ⟨d, hv, hd, hw⟩⟩

end Views

/-! ## Identifiers of the tree -/

def Names (n : Node) (w : Word) : Prop := n.shape = .identifier w.text ∧ n.span = w.span

private theorem names_iff {n : Node} {w : Word} : Names n w ↔ n.word? = some w := by
  unfold Names Node.word?
  split
  case h_1 text hshape =>
    rw [hshape, Shape.identifier.injEq, Option.some.injEq, Word.mk.injEq]
  case h_2 hother =>
    simp only [reduceCtorEq, iff_false, not_and]
    exact fun hshape => absurd hshape (hother w.text)

/-- A row in view in a file: in view from a named row at the top. -/
def Reading.InView (source : List Char) (root r : Reading) : Prop :=
  ∃ top ∈ namedOf root.children, top.Views source r

/-- The identifiers that a walk of a file's tree visits are the identifier rows in view: each is
there with its name and its span, and there are no others. -/
theorem visits_identifier_iff_inView (source : String) (root : Row) (w : Word) :
    (∃ id ∈ (layout source root).tree.walk (layout source root).tree.root,
      Names ((layout source root).tree.node id) w) ↔
    ∃ r, (root.read source.toList).InView source.toList r ∧ r.isIdentifier = true ∧
      r.word source.toList = w := by
  have hwalk := (layout_rooted source root).walk_root_perm
  have hnames : (∃ id ∈ (layout source root).tree.walk (layout source root).tree.root,
      Names ((layout source root).tree.node id) w) ↔
        w ∈ (outlineOf source.toList root).flatMap words := by
    rw [← layout_names, Arena.names, List.mem_filterMap]
    simp only [hwalk.mem_iff, List.mem_range, List.mem_range'_1, names_iff, Nat.zero_le, true_and,
      Nat.zero_add, Nat.sub_zero]
    rfl
  have hgenuine {top : Reading} (htop : top ∈ namedOf (root.read source.toList).children) :
      Throughout (Genuine source.toList) top :=
    (genuine_read source.toList root).inside top (mem_of_mem_namedOf htop)
  rw [hnames, outlineOf, words_outlines, Row.readAll_eq, ← Row.read_children, List.mem_flatMap]
  simp only [mem_words_iff]
  constructor
  · rintro ⟨top, htop, hw⟩
    obtain ⟨r, hv, hr⟩ := (holds_iff_views (hgenuine htop)).mp hw
    exact ⟨r, ⟨top, htop, hv⟩, hr⟩
  · rintro ⟨r, ⟨top, htop, hv⟩, hr⟩
    exact ⟨top, htop, (holds_iff_views (hgenuine htop)).mpr ⟨r, hv, hr⟩⟩

end CoroutineCheck.Kotlin

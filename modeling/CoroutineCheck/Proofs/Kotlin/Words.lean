import CoroutineCheck.Proofs.Kotlin.Passing
/-!
# The names in an outline

The names of an item are listed in the order in which they are placed. A row that is no identifier has
the names of the rows that it passes on, one list after the other, and the identifiers of an arena are
the names of the items that are laid in it. Nothing is named twice on the way and nothing is lost.
-/
namespace CoroutineCheck.Kotlin

open Reading Outline

namespace Outline

def name? : Outline → Option Word
  | word w => some w
  | _ => none

def words (o : Outline) : List Word :=
  (o.parts.attach.flatMap fun c => words c.1) ++ o.name?.toList
termination_by sizeOf o
decreasing_by exact sizeOf_lt_of_mem_parts c.2

theorem words_eq (o : Outline) : o.words = o.parts.flatMap words ++ o.name?.toList := by
  rw [words]
  congr 1
  conv_rhs => rw [← List.attach_map_subtype_val o.parts, List.flatMap_map]

@[simp] theorem words_word (w : Word) : (word w).words = [w] := by
  rw [words_eq]
  rfl

private theorem words_of_name?_eq_none {o : Outline} (h : o.name? = none) :
    o.words = o.parts.flatMap words := by
  rw [words_eq, h]
  exact List.append_nil _

private theorem collects_words : Collects words := by
  intro o ho
  apply words_of_name?_eq_none
  cases o with
  | word => cases ho
  | _ => rfl

end Outline

theorem words_outlines (rs : List Reading) :
    (outlines rs).flatMap words = rs.flatMap fun r => r.outline.words :=
  flatMap_outlines words rs

/-! ## Names under a row -/

section Rows

variable {source : List Char}

private theorem ReadsAs.name?_eq_none {span : Span} {call : Option Outline} {rows : List Reading}
    {kind : String} {o : Outline} {passed : List Reading} (hr : ReadsAs source span call rows kind o passed)
    (hid : identifierKinds.contains kind = false) (hcall : ∀ q ∈ call, q.name? = none)
    (h : ∀ r ∈ rows, Throughout (Genuine source) r) : o.name? = none := by
  cases hr with
  | word hk => rw [hk] at hid; cases hid
  | call hc => exact hcall o hc
  | annotated hfound =>
    obtain ⟨hkind, hgenuine⟩ := firstIn?_spec h hfound
    rw [hgenuine.here.outline_literal hkind]
    rfl
  | _ => rfl

private theorem name?_outline {r : Reading} (h : Throughout (Genuine source) r)
    (hid : r.isIdentifier = false) : r.outline.name? = none := by
  rw [h.here.outline]
  refine (readRow_readsAs _ _ _ _ _).name?_eq_none hid ?_ h.inside
  intro q hq
  rw [h.here.call] at hq
  split at hq
  · cases callReads_of_readCall? hq <;> rfl
  · cases hq

theorem words_outline {r : Reading} (h : Throughout (Genuine source) r)
    (hid : r.isIdentifier = false) :
    r.outline.words = (r.passes source).flatMap fun c => c.outline.words := by
  rcases outline_collects collects_words h with ⟨found, _, hfound, hpasses⟩ | hparts
  · rw [hfound, hpasses, List.flatMap_singleton]
  · rw [words_of_name?_eq_none (name?_outline h hid), hparts]

end Rows

end CoroutineCheck.Kotlin

/-! ## Names in an arena -/

namespace CoroutineCheck

def Node.word? (n : Node) : Option Kotlin.Word :=
  match n.shape with
  | .identifier text => some ⟨text, n.span⟩
  | _ => none

namespace Arena

def names (a : Arena) (start stop : Nat) : List Kotlin.Word :=
  (List.range' start (stop - start)).filterMap fun i => (a.node i).word?

private theorem names_append (a : Arena) {m n k : Nat} (hmn : m ≤ n) (hnk : n ≤ k) :
    a.names m k = a.names m n ++ a.names n k := by
  have hsplit : k - m = (n - m) + (k - n) := by omega
  have hstart : m + (n - m) = n := by omega
  unfold names
  rw [hsplit, ← List.range'_append_1, List.filterMap_append, hstart]

private theorem names_one (a : Arena) (n : Nat) : a.names n (n + 1) = (a.node n).word?.toList := by
  unfold names
  rw [Nat.add_sub_cancel_left]
  simp [List.filterMap_eq_flatMap_toList]

private theorem names_congr {a b : Arena} {m n : Nat}
    (h : ∀ i, i < n → ∃ p, b.node i = { a.node i with parent := p }) : b.names m n = a.names m n := by
  unfold names
  apply List.filterMap_congr
  intro i hi
  obtain ⟨p, hp⟩ := h i (by have := List.mem_range'_1.mp hi; omega)
  rw [hp]
  rfl

end Arena

namespace Kotlin

open Outline

private theorem word?_node {o : Outline} {span : Span} {shape : Shape} {parent : Option Nat}
    {children : List Nat} (hspan : o.nodeSpan? = some span) (hshape : o.Shapes shape) :
    Node.word? ⟨shape, span, parent, children⟩ = o.name? := by
  cases o with
  | word w =>
    cases hspan
    cases hshape
    rfl
  | call => obtain ⟨_, _, _, _, rfl, _⟩ := hshape; rfl
  | navigation | binary => obtain ⟨_, _, rfl⟩ := hshape; rfl
  | argument | parenthesized => obtain ⟨_, rfl⟩ := hshape; rfl
  | lambda | classDecl | wrapper => cases hshape; rfl
  | _ => cases hshape

/-- Laying items adds identifiers for their names, in order, and no others. -/
theorem Outline.Lays.names_eq {os : List Outline} {a b : Arena} {ids : List Nat}
    (h : Lays os a ids b) : b.names a.size b.size = os.flatMap words := by
  induction h with
  | nil => simp [Arena.names]
  | @node o rest a b c xs ys extra span shape hspan hshape hids hparts hrest ihparts ihrest =>
    have hlt := hparts.placed.grows.childrenOf_lt hids
    have hgrows := hrest.placed.grows
    have hab := hparts.placed.grows.size_le
    have hbc := hgrows.size_le
    rw [Arena.size_add] at hbc ihrest
    -- The nodes of the parts, the node of the item, and the nodes of the other items.
    have hold : ∀ i, i < b.size → ∃ p, c.node i = { b.node i with parent := p } := by
      intro i hi
      rw [hgrows.node_eq i (by rw [Arena.size_add]; omega)]
      exact Arena.exists_node_add_lt hlt hi
    have hself : (c.node b.size).word? = o.name? := by
      rw [hgrows.node_eq b.size (by rw [Arena.size_add]; omega), Arena.node_add_self hlt]
      exact word?_node hspan hshape
    rw [c.names_append hab (by omega), c.names_append (Nat.le_succ b.size) hbc,
      Arena.names_congr hold, ihparts, Arena.names_one, hself, ihrest, List.flatMap_cons,
      Outline.words_eq, List.append_assoc]
  | @bare o rest a b c xs ys hspan hparts hrest ihparts ihrest =>
    have hgrows := hrest.placed.grows
    have hold : ∀ i, i < b.size → ∃ p, c.node i = { b.node i with parent := p } := fun i hi =>
      ⟨_, hgrows.node_eq i hi⟩
    have hname : o.name? = none := by
      cases o with
      | word => cases hspan
      | _ => rfl
    rw [c.names_append hparts.placed.grows.size_le hgrows.size_le, Arena.names_congr hold, ihparts,
      ihrest, List.flatMap_cons, words_of_name?_eq_none hname]

theorem layout_names (source : String) (root : Row) :
    (layout source root).tree.arena.names 0 (layout source root).tree.size =
      (outlineOf source.toList root).flatMap words := by
  obtain ⟨ids, b, hlays, htree⟩ := layout_lays source root
  have hgrows := hlays.placed.grows
  have hold := fun i => Arena.node_finishWithRoot_lt hgrows source root.kind (i := i)
  have hroot : (b.finishWithRoot source root.kind).arena.node b.size = _ :=
    Arena.node_finishWithRoot_root hgrows source root.kind
  rw [htree, Arena.size_finishWithRoot, Arena.names_append _ (Nat.zero_le _) (Nat.le_succ b.size),
    Arena.names_congr hold, Arena.names_one, hroot, ← hlays.names_eq]
  exact List.append_nil _

end Kotlin
end CoroutineCheck

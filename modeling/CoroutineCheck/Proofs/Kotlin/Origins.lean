import CoroutineCheck.Proofs.Kotlin.Nesting
import CoroutineCheck.Proofs.Kotlin.References
import Mathlib.Data.List.Flatten
import Mathlib.Data.List.Perm.Subperm
/-!
# Where identifiers come from

The rows that a row passes on stand in different places below it, so no row is read twice: the names in
the outline of a file are among the names of its identifier rows, each used once. Hence the identifiers
of a file's tree stem from different rows, and no two calls share a callee. Together with the facts on
nodes and spans this says that a file's tree is well formed.
-/
namespace CoroutineCheck.Kotlin

open Reading Outline

/-! ## Parts of lists -/

section Lists

variable {α β : Type}

private theorem subperm_flatMap {l l' : List α} (f : α → List β) (h : l.Subperm l') :
    (l.flatMap f).Subperm (l'.flatMap f) := by
  obtain ⟨k, hperm, hsub⟩ := h
  exact ⟨k.flatMap f, hperm.flatMap_right f, hsub.flatMap f⟩

private theorem flatMap_subperm {l : List α} {f g : α → List β} (h : ∀ x ∈ l, (f x).Subperm (g x)) :
    (l.flatMap f).Subperm (l.flatMap g) := by
  induction l with
  | nil => exact List.Subperm.refl _
  | cons x l ih =>
    obtain ⟨hx, hl⟩ := List.forall_mem_cons.mp h
    exact hx.append (ih hl)

private theorem subperm_flatMap_of_mem {l : List α} {x : α} (f : α → List β) (h : x ∈ l) :
    (f x).Subperm (l.flatMap f) := by
  have hsub := subperm_flatMap f (List.singleton_subperm_iff.mpr h)
  rwa [List.flatMap_singleton] at hsub

private theorem find?_subperm {l : List α} {p q : α → Bool} (hpq : ∀ x, p x = true → q x = false) :
    ((l.find? p).toList ++ (l.find? q).toList).Subperm l := by
  cases hp : l.find? p with
  | none =>
    cases hq : l.find? q with
    | none => exact List.nil_subperm
    | some y => exact List.singleton_subperm_iff.mpr (List.mem_of_find?_eq_some hq)
  | some x =>
    cases hq : l.find? q with
    | none => exact List.singleton_subperm_iff.mpr (List.mem_of_find?_eq_some hp)
    | some y =>
      have hne : x ≠ y := by
        rintro rfl
        have hx := hpq x (List.find?_some hp)
        rw [List.find?_some hq] at hx
        cases hx
      refine List.subperm_of_subset (by simpa using hne) ?_
      simp [List.mem_of_find?_eq_some hp, List.mem_of_find?_eq_some hq]

/-- Values that are used once each come from different members. -/
private theorem exists_sources [Inhabited β] {γ : Type} {l : List α} {m : List β} {u : α → Option γ}
    {v : β → Option γ} (hl : l.Nodup) (hm : m.Nodup) (h : (l.filterMap u).Subperm (m.filterMap v)) :
    ∃ g : α → β, (∀ x ∈ l, ∀ w ∈ u x, g x ∈ m ∧ v (g x) = some w) ∧
      ∀ x ∈ l, ∀ y ∈ l, (u x).isSome = true → (u y).isSome = true → g x = g y → x = y := by
  classical
  induction l generalizing m with
  | nil => exact ⟨fun _ => default, by simp, by simp⟩
  | cons x l ih =>
    obtain ⟨hx, hl⟩ := List.nodup_cons.mp hl
    cases hu : u x with
    | none =>
      rw [List.filterMap_cons_none hu] at h
      obtain ⟨g, hg, hinj⟩ := ih hl hm h
      refine ⟨g, ?_, ?_⟩
      · simpa [hu] using hg
      · simpa [hu] using hinj
    | some w =>
      rw [List.filterMap_cons_some hu] at h
      obtain ⟨z, hz, hv⟩ := List.mem_filterMap.mp (h.subset List.mem_cons_self)
      have hperm : (m.filterMap v).Perm (w :: (m.erase z).filterMap v) := by
        have hp := (List.perm_cons_erase hz).filterMap v
        rwa [List.filterMap_cons_some hv] at hp
      obtain ⟨g, hg, hinj⟩ := ih hl (hm.erase z)
        ((List.subperm_cons w).mp (h.trans hperm.subperm))
      -- Nothing else comes from `z`, as it was taken out.
      have hother {y : α} (hy : y ∈ l) (hs : (u y).isSome = true) : g y ≠ z := by
        obtain ⟨w', hw'⟩ := Option.isSome_iff_exists.mp hs
        intro hgy
        exact hm.not_mem_erase (hgy ▸ (hg y hy w' hw').1)
      refine ⟨Function.update g x z, ?_, ?_⟩
      · intro y hy w' hw'
        rcases List.mem_cons.mp hy with rfl | hy
        · rw [hu] at hw'
          cases hw'
          rw [Function.update_self]
          exact ⟨hz, hv⟩
        · have hne : y ≠ x := fun he => hx (he ▸ hy)
          rw [Function.update_of_ne hne]
          obtain ⟨hmem, hvy⟩ := hg y hy w' hw'
          exact ⟨List.mem_of_mem_erase hmem, hvy⟩
      · intro a ha b hb hsa hsb hab
        by_cases hax : a = x
        · by_cases hbx : b = x
          · rw [hax, hbx]
          · have hb := List.mem_of_ne_of_mem hbx hb
            rw [hax, Function.update_self, Function.update_of_ne hbx] at hab
            exact absurd hab.symm (hother hb hsb)
        · have ha := List.mem_of_ne_of_mem hax ha
          by_cases hbx : b = x
          · rw [hbx, Function.update_self, Function.update_of_ne hax] at hab
            exact absurd hab (hother ha hsa)
          · have hb := List.mem_of_ne_of_mem hbx hb
            rw [Function.update_of_ne hax, Function.update_of_ne hbx] at hab
            exact hinj a ha b hb hsa hsb hab

private theorem filterMap_eq_range (l : List α) (f : α → Option β) :
    l.filterMap f = (List.range l.length).filterMap fun i => l[i]?.bind f := by
  have hrange : (List.range l.length).map (fun i => l[i]?) = l.map some :=
    List.ext_getElem (by simp) (by simp)
  have hleft : (l.map some).filterMap (·.bind f) = l.filterMap f := by
    rw [List.filterMap_map]
    rfl
  rw [← hleft, ← hrange, List.filterMap_map]
  rfl

end Lists

/-! ## Rows are passed on once -/

section Passed

variable {α : Type} {f : Reading → List α} {source : List Char} {rows : List Reading}

/-- What is listed for the rows below a row is listed for the row. -/
def Gathers (f : Reading → List α) : Prop := ∀ r : Reading, (r.children.flatMap f).Subperm (f r)

variable (hf : Gathers f)

include hf

private theorem Gathers.of_mem {r c : Reading} (hc : c ∈ r.children) : (f c).Subperm (f r) :=
  (subperm_flatMap_of_mem f hc).trans (hf r)

private theorem Gathers.of_sublist {r : Reading} {rs : List Reading} (h : rs.Sublist r.children) :
    (rs.flatMap f).Subperm (f r) :=
  (subperm_flatMap f h.subperm).trans (hf r)

private theorem Gathers.throughout {r : Reading} {l : List α} (h : (f r).Subperm l) :
    Throughout (fun c => (f c).Subperm l) r := by
  induction hk : sizeOf r using Nat.strongRecOn generalizing r with
  | ind k ih =>
    subst hk
    refine .intro h fun c hc => ?_
    exact ih (sizeOf c) (sizeOf_lt_of_mem hc) ((hf.of_mem hc).trans h) rfl

theorem Gathers.callParts (rows : List Reading) :
    ((callParts rows).flatMap f).Subperm (rows.flatMap f) := by
  unfold Kotlin.callParts
  rw [List.flatMap_assoc]
  refine (flatMap_subperm ?_).trans (subperm_flatMap f (List.filter_sublist (p := named)).subperm)
  intro r _
  split
  · exact hf.of_sublist List.filter_sublist
  · split
    · exact List.nil_subperm
    · rw [List.flatMap_singleton]

theorem Gathers.argumentValuesIn (rest : List Reading) :
    ((argumentValuesIn rest).flatMap f).Subperm
      ((rest.find? (·.kind == "value_arguments")).toList.flatMap f) := by
  unfold Kotlin.argumentValuesIn
  cases rest.find? (·.kind == "value_arguments") with
  | none => exact List.nil_subperm
  | some list =>
    simp only [Option.map_some, Option.getD_some, Option.toList_some, List.flatMap_singleton,
      List.filterMap_eq_flatMap_toList, List.flatMap_assoc]
    refine (flatMap_subperm fun a _ => ?_).trans
      (hf.of_sublist (List.filter_sublist.trans List.filter_sublist))
    cases hv : (namedOf a.children).getLast? with
    | none => exact List.nil_subperm
    | some v =>
      have hmem := mem_of_mem_namedOf (List.mem_of_getLast? hv)
      simpa using hf.of_mem hmem

theorem Gathers.callRows (rows : List Reading) :
    ((callRows rows).flatMap f).Subperm (rows.flatMap f) := by
  refine List.Subperm.trans ?_ (hf.callParts rows)
  unfold Kotlin.callRows
  split
  · exact List.nil_subperm
  case h_2 head rest hparts =>
    have hexclude : ∀ r : Reading, (r.kind == "value_arguments") = true →
        lambdaKinds.contains r.kind = false := by
      intro r hr
      rw [beq_iff_eq.mp hr]
      decide
    rw [hparts, List.flatMap_cons, List.flatMap_cons, List.flatMap_append]
    refine (List.Subperm.refl _).append ?_
    refine ((hf.argumentValuesIn rest).append (List.Subperm.refl _)).trans ?_
    rw [← List.flatMap_append]
    exact subperm_flatMap f (find?_subperm hexclude)

omit hf in
private theorem operationSides?_subperm {l r : Reading} (h : operationSides? rows = some (l, r)) :
    [l, r].Subperm rows := by
  unfold operationSides? at h
  split at h
  case h_1 hl hr =>
    cases h
    have hsides := find?_subperm (l := rows) (p := (·.side == some .left)) (q := (·.side == some .right))
      (fun x hx => by rw [beq_iff_eq.mp hx]; rfl)
    rwa [hl, hr] at hsides
  · split at h
    case h_1 hrows =>
      cases h
      rw [← hrows]
      exact (List.filter_sublist.trans List.filter_sublist).subperm
    · cases h

private theorem ReadsAs.passed_subperm {span : Span} {call : Option Outline} {kind : String} {o : Outline}
    {passed : List Reading} (hr : ReadsAs source span call rows kind o passed) :
    (passed.flatMap f).Subperm (rows.flatMap f) := by
  cases hr with
  | word | nothing | package | imported => exact List.nil_subperm
  | group | lambda => exact subperm_flatMap f List.filter_sublist.subperm
  | call => exact hf.callRows rows
  | @navigation receiver selector hn =>
    obtain ⟨last, hsub, _, hsel⟩ := navigationParts?_spec hn
    have hlast : (f selector).Subperm (f last) := by
      rcases hsel with rfl | ⟨_, hsel⟩
      · exact List.Subperm.refl _
      · exact hf.of_mem hsel
    refine List.Subperm.trans ?_ (subperm_flatMap f hsub.subperm)
    simpa using (List.Subperm.refl (f receiver)).append hlast
  | sum hs => exact subperm_flatMap f (operationSides?_subperm hs)
  | parenthesized hi =>
    have hmem := mem_of_mem_namedOf (List.mem_of_head? hi)
    exact subperm_flatMap f (List.singleton_subperm_iff.mpr hmem)
  | annotated hfound =>
    have hall : ∀ r ∈ rows, Throughout (fun c => (f c).Subperm (rows.flatMap f)) r :=
      fun r hr => hf.throughout (subperm_flatMap_of_mem f hr)
    simpa using (firstIn?_spec hall hfound).2.here
  | classDecl =>
    exact subperm_flatMap f
      (List.filter_sublist.trans (List.eraseP_sublist.trans List.filter_sublist)).subperm
  | function => exact subperm_flatMap f (List.filter_sublist.trans List.eraseP_sublist).subperm
  | property => exact subperm_flatMap f List.filter_sublist.subperm
  | parameter => exact subperm_flatMap f (List.eraseP_sublist.trans List.filter_sublist).subperm

private theorem passes_subperm (r : Reading) :
    ((r.passes source).flatMap f).Subperm (r.children.flatMap f) :=
  (readRow_readsAs source r.kind r.span r.call r.children).passed_subperm hf

end Passed

/-! ## Names of rows -/

def Row.name? (source : List Char) (r : Row) : Option Word :=
  if identifierKinds.contains r.kind then some ⟨String.ofList (pieceOf source r.span), r.span⟩
  else none

mutual

def Reading.names (source : List Char) : Reading → List Word
  | .mk kind _ span _ _ _ children =>
    (if identifierKinds.contains kind then [⟨String.ofList (pieceOf source span), span⟩] else []) ++
      namesAll source children

def namesAll (source : List Char) : List Reading → List Word
  | [] => []
  | r :: rest => r.names source ++ namesAll source rest

end

variable {source : List Char}

theorem Reading.names_eq (source : List Char) (r : Reading) : r.names source =
    (if r.isIdentifier then [r.word source] else []) ++ r.children.flatMap (names source) := by
  have hall (rs : List Reading) : namesAll source rs = rs.flatMap (names source) := by
    induction rs with
    | nil => rfl
    | cons r rs ih => rw [namesAll, ih, List.flatMap_cons]
  cases r
  rw [names, hall]
  rfl

private theorem gathers_names (source : List Char) : Gathers (names source) := by
  intro r
  rw [names_eq source r]
  exact (List.sublist_append_right _ _).subperm

private theorem names_read (source : List Char) (row : Row) :
    (row.read source).names source = row.rows.filterMap (Row.name? source) := by
  induction row using Row.children_induction with
  | h row ih =>
    have hbelow : (row.read source).children.flatMap (names source) =
        (row.children.flatMap Row.rows).filterMap (Row.name? source) := by
      rw [Row.read_children, List.flatMap_map, List.filterMap_flatMap]
      exact List.flatMap_congr ih
    have hword : (row.read source).word source = ⟨String.ofList (pieceOf source row.span), row.span⟩ := by
      simp [Reading.word]
    rw [names_eq, Row.rows_eq, hbelow, isIdentifier, Row.read_kind, hword]
    cases hid : identifierKinds.contains row.kind with
    | true =>
      have hname : row.name? source = _ := if_pos hid
      rw [List.filterMap_cons_some hname]
      rfl
    | false =>
      have hname : row.name? source = none := if_neg (by rw [hid]; exact Bool.false_ne_true)
      rw [List.filterMap_cons_none hname]
      rfl

/-- The outline of a row uses each name of its identifier rows at most once. -/
theorem words_subperm {r : Reading} (h : Throughout (Genuine source) r) :
    r.outline.words.Subperm (r.names source) := by
  induction hk : sizeOf r using Nat.strongRecOn generalizing r with
  | ind k ih =>
    subst hk
    cases hid : r.isIdentifier with
    | true =>
      rw [h.here.outline_of_isIdentifier hid, words_word, names_eq, if_pos hid]
      exact (List.sublist_append_left _ _).subperm
    | false =>
      rw [words_outline h hid]
      have hpassed : ((r.passes source).flatMap fun c => c.outline.words).Subperm
          ((r.passes source).flatMap (names source)) :=
        flatMap_subperm fun c hc =>
          ih (sizeOf c) (sizeOf_lt_of_mem_passes hc) (throughout_passes h.inside c hc) rfl
      exact (hpassed.trans (passes_subperm (gathers_names source) r)).trans (gathers_names source r)

private theorem words_outlineOf_subperm (source : List Char) (root : Row) :
    ((outlineOf source root).flatMap words).Subperm (root.rows.filterMap (Row.name? source)) := by
  have hgenuine := genuine_read source root
  rw [outlineOf, words_outlines, Row.readAll_eq, ← Row.read_children, ← names_read]
  refine (flatMap_subperm fun c hc => words_subperm (hgenuine.inside c (mem_of_mem_namedOf hc))).trans ?_
  exact (gathers_names source).of_sublist List.filter_sublist

/-! ## Callees -/

theorem Outline.Lays.split {os qs : List Outline} {a c : Arena} {ids : List Nat}
    (h : Lays (os ++ qs) a ids c) :
    ∃ xs ys b, ids = xs ++ ys ∧ Lays os a xs b ∧ Lays qs b ys c := by
  induction os generalizing a ids with
  | nil => exact ⟨[], ids, a, rfl, .nil, h⟩
  | cons o os ih =>
    cases h with
    | node hspan hshape hids hparts hrest =>
      obtain ⟨xs, ys, b, rfl, hos, hqs⟩ := ih hrest
      exact ⟨_ :: xs, ys, b, rfl, .node hspan hshape hids hparts hos, hqs⟩
    | bare hspan hparts hrest =>
      obtain ⟨xs, ys, b, rfl, hos, hqs⟩ := ih hrest
      exact ⟨_ ++ xs, ys, b, (List.append_assoc _ _ _).symm, .bare hspan hparts hos, hqs⟩

theorem Outline.Lays.identifier {w : Word} {rest : List Outline} {a b : Arena} {ids : List Nat}
    (h : Lays (word w :: rest) a ids b) :
    ∃ i ys, ids = i :: ys ∧ i < b.size ∧ (b.node i).shape = .identifier w.text := by
  cases h with
  | @node _ _ _ b' _ xs ys extra span shape hspan hshape hids hparts hrest =>
    have hgrows := hrest.placed.grows
    have hlt := hparts.placed.grows.childrenOf_lt hids
    have hsize := hgrows.size_le
    rw [Arena.size_add] at hsize
    refine ⟨b'.size, ys, rfl, by omega, ?_⟩
    rw [hgrows.node_eq b'.size (by rw [Arena.size_add]; omega), Arena.node_add_self hlt]
    exact hshape
  | bare hspan => cases hspan

theorem Outline.StandsFor.callee {c : Arena} {i callee : Nat} {receiver lambda : Option Nat}
    {args : List Nat} (h : StandsFor SingleOperands c i)
    (hcall : (c.node i).shape = .call receiver callee args lambda) :
    ∃ name, (c.node callee).shape = .identifier name := by
  cases h with
  | @intro o a b xs extra span shape hs hspan hshape hids hlays hnodes =>
    have hlt := hlays.placed.grows.childrenOf_lt hids
    obtain ⟨p, hself⟩ := hnodes b.size (Nat.le_refl _)
    rw [hself, Arena.node_add_self hlt] at hcall
    subst hcall
    cases o <;> simp only [Shapes, reduceCtorEq, exists_const] at hshape
    case call s r w as l =>
      obtain ⟨_, _, _, _, heq, hsome, _⟩ := hshape
      cases heq
      obtain ⟨ys, zs, b', rfl, hreceiver, hrest⟩ := Lays.split hlays
      obtain ⟨k, zs, rfl, hkb, hk⟩ := hrest.identifier
      obtain ⟨hys, hyssome⟩ := hreceiver.eq_toList_head? hs.1
      -- The receivers before the callee are as many on both sides.
      have hlen : receiver.toList.length = ys.length := by
        have hsame := hsome.trans hyssome.symm
        rw [hys]
        generalize ys.head? = first at hsame
        cases receiver <;> cases first <;> simp at hsame ⊢
      have hcallee : callee = k := by
        simp only [Shape.parts, List.append_assoc, List.cons_append] at hids
        exact (List.cons.inj (List.append_inj hids hlen).2).1
      subst hcallee
      obtain ⟨q, hnode⟩ := hnodes callee (Nat.le_of_lt hkb)
      refine ⟨w.text, ?_⟩
      rw [hnode, Arena.node_add_lt hlt hkb]
      split <;> exact hk

/-! ## Well formed layouts -/

/-- Identifiers stem from different identifier rows with their spans and texts, and different calls have
callees from different rows. -/
structure StemsFrom (source : List Char) (root : Row) (t : Tree) (origin : Nat → Nat) : Prop where
  from_row : ∀ id name, t.shape id = .identifier name → ∃ row, root.rows[origin id]? = some row ∧
    identifierKinds.contains row.kind = true ∧ row.span = t.span id ∧
    String.ofList (pieceOf source row.span) = name
  distinct : ∀ i j, t.kind i = .identifier → t.kind j = .identifier → origin i = origin j → i = j
  callees : ∀ i j r s c d as bs l m, t.shape i = .call r c as l → t.shape j = .call s d bs m → i ≠ j →
    t.kind c = .identifier ∧ t.kind d = .identifier ∧ origin c ≠ origin d

private theorem exists_identifier {t : Tree} {id : Nat} (h : t.kind id = .identifier) :
    id < t.size ∧ ∃ name, t.shape id = .identifier name := by
  have hname : ∃ name, t.shape id = .identifier name := by
    unfold Tree.kind at h
    cases hs : t.shape id <;> simp_all [Shape.kind]
  obtain ⟨name, hshape⟩ := hname
  exact ⟨Tree.lt_size_of_shape (by simp [hshape]), name, hshape⟩

private theorem exists_stemsFrom {root : Row} {t : Tree} (hrooted : t.Rooted)
    (hnames : (t.arena.names 0 t.size).Subperm (root.rows.filterMap (Row.name? source)))
    (hcallee : ∀ i r c as l, t.shape i = .call r c as l → ∃ name, t.shape c = .identifier name) :
    ∃ origin, StemsFrom source root t origin := by
  rw [filterMap_eq_range root.rows] at hnames
  obtain ⟨origin, hfrom, hinj⟩ := exists_sources List.nodup_range' List.nodup_range hnames
  have hmem {id : Nat} (hid : t.kind id = .identifier) : id ∈ List.range' 0 (t.size - 0) := by
    simpa using (exists_identifier hid).1
  have hword {id : Nat} {name : String} (hid : t.shape id = .identifier name) :
      (t.arena.node id).word? = some ⟨name, t.span id⟩ := by
    unfold Node.word?
    rw [show (t.arena.node id).shape = .identifier name from hid]
    rfl
  have hdistinct : ∀ i j, t.kind i = .identifier → t.kind j = .identifier → origin i = origin j →
      i = j := by
    intro i j hi hj
    obtain ⟨_, hni⟩ := (exists_identifier hi).2
    obtain ⟨_, hnj⟩ := (exists_identifier hj).2
    exact hinj i (hmem hi) j (hmem hj) (by rw [hword hni]; rfl) (by rw [hword hnj]; rfl)
  refine ⟨origin, ?_, hdistinct, ?_⟩
  · intro id name hid
    have hkind : t.kind id = .identifier := by rw [Tree.kind, hid]; rfl
    obtain ⟨row, hrow, hname⟩ :=
      Option.bind_eq_some_iff.mp (hfrom id (hmem hkind) _ (hword hid)).2
    unfold Row.name? at hname
    split at hname
    case isTrue hk =>
      rw [Option.some.injEq, Word.mk.injEq] at hname
      exact ⟨row, hrow, hk, hname.2, hname.1⟩
    · cases hname
  · intro i j r s c d as bs l m hi hj hij
    obtain ⟨_, hc⟩ := hcallee i r c as l hi
    obtain ⟨_, hd⟩ := hcallee j s d bs m hj
    have hkc : t.kind c = .identifier := by rw [Tree.kind, hc]; rfl
    have hkd : t.kind d = .identifier := by rw [Tree.kind, hd]; rfl
    refine ⟨hkc, hkd, fun heq => hij ?_⟩
    have hcd := hdistinct c d hkc hkd heq
    subst hcd
    -- A callee is a child of its call, and has one parent.
    have hparent {k : Nat} {q : Option Nat} {xs : List Nat} {z : Option Nat}
        (hk : t.shape k = .call q c xs z) : t.parent? c = some k :=
      (hrooted.mem_children_iff k c).mp (Arena.parts_subset (by
        rw [show (t.arena.node k).shape = _ from hk]
        simp [Shape.parts]))
    exact Option.some.inj ((hparent hi).symm.trans (hparent hj))

private theorem layout_stemsFrom (source : String) (root : Row) :
    ∃ origin, StemsFrom source.toList root (layout source root).tree origin := by
  have hsingle : (fileOutline source.toList root).Everywhere SingleOperands :=
    everywhere_fileOutline trivial trivial fun row _ =>
      (carries_singleOperands source.toList row).here.outline
  refine exists_stemsFrom (layout_rooted source root) ?_ ?_
  · rw [layout_names]
    exact words_outlineOf_subperm source.toList root
  · intro i r c as l hcall
    have hi : i < (layout source root).tree.size := Tree.lt_size_of_shape (by simp [hcall])
    exact (layout_standsFor source root hsingle hi).callee hcall

/-- The tree of a file whose rows nest inside the source is well formed and duplicates nothing. A walk
from the root visits every node once, parents and children agree, nodes contain their children, which
begin one after the other, and each identifier has an identifier row of its own. -/
theorem layout_wellFormed {source : String} {root : Row} (h : root.Nests)
    (hroot : Span.contains ⟨0, Text.byteLength source.toList⟩ root.span = true) :
    ((layout source root).tree.walk (layout source root).tree.root).Perm
      (List.range (layout source root).tree.size) ∧
    (∀ p c, (layout source root).tree.parent? c = some p ↔
      c ∈ (layout source root).tree.children p) ∧
    (layout source root).tree.Nested ∧
    (∀ p, ((layout source root).tree.children p).Pairwise fun c d =>
      ((layout source root).tree.span c).start ≤ ((layout source root).tree.span d).start) ∧
    ∃ origin, StemsFrom source.toList root (layout source root).tree origin := by
  have hrooted := layout_rooted source root
  refine ⟨hrooted.walk_root_perm, ?_, layout_nested h hroot, layout_children_in_order source root,
    layout_stemsFrom source root⟩
  exact fun p c => (hrooted.mem_children_iff p c).symm

def lambdaCall : String := "f(x) \x7b g() \x7d"

def lambdaCallRows : Row :=
  .over "source_file" 0 12 [.over "call_expression" 0 12 [
    .over "call_expression" 0 4 [.over "identifier" 0 1 [], .over "value_arguments" 1 4 [
      .token "(" 1 2, .over "value_argument" 2 3 [.over "identifier" 2 3 []], .token ")" 3 4]],
    .over "annotated_lambda" 5 12 [.over "lambda_literal" 5 12 [.token "\x7b" 5 6,
      .over "call_expression" 7 10 [.over "identifier" 7 8 [],
        .over "value_arguments" 8 10 [.token "(" 8 9, .token ")" 9 10]], .token "\x7d" 11 12]]]]

theorem layout_wellFormed_lambdaCall :
    lambdaCallRows.Nests ∧
    Span.contains ⟨0, Text.byteLength lambdaCall.toList⟩ lambdaCallRows.span = true ∧
    (layout lambdaCall lambdaCallRows).tree.shape 6 = .call none 0 [2] (some 5) ∧
    ((layout lambdaCall lambdaCallRows).tree.walk 7).Perm (List.range 8) ∧
    (layout lambdaCall lambdaCallRows).tree.Nested ∧
    ∃ origin, StemsFrom lambdaCall.toList lambdaCallRows (layout lambdaCall lambdaCallRows).tree
      origin := by
  have hplaced : lambdaCallRows.WellPlaced lambdaCall.toList := by decide +kernel
  have hroot : Span.contains ⟨0, Text.byteLength lambdaCall.toList⟩ lambdaCallRows.span = true := by
    decide +kernel
  have hshape : (layout lambdaCall lambdaCallRows).tree.shape 6 = .call none 0 [2] (some 5) := by
    decide +kernel
  have hsize : (layout lambdaCall lambdaCallRows).tree.size = 8 := by decide +kernel
  have htop : (layout lambdaCall lambdaCallRows).tree.root = 7 := by decide +kernel
  obtain ⟨hwalk, _, hnested, _, hstems⟩ :=
    @layout_wellFormed lambdaCall lambdaCallRows hplaced.nests hroot
  rw [hsize, htop] at hwalk
  exact ⟨hplaced.nests, hroot, hshape, hwalk, hnested, hstems⟩

end CoroutineCheck.Kotlin

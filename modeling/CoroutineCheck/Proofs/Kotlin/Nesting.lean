import CoroutineCheck.Proofs.Fix.Separation
import CoroutineCheck.Proofs.Kotlin.Containment
/-!
# Spans of a laid out file

A parser's rows lie on the source, contain their children, and siblings follow one another. Then the
nodes of the file's tree lie on the source and contain their children too, and a receiver ends before
its callee or selector. The facts are first proved of outlines, row by row, and then of the nodes that
the items become.
-/
namespace CoroutineCheck

namespace Span

instance (source : List Char) (s : Span) : Decidable (s.OnSource source) :=
  decidable_of_iff (s.start ≤ s.stop ∧ Text.isBoundary source s.start = true ∧
      Text.isBoundary source s.stop = true)
    ⟨fun h => ⟨h.1, h.2.1, h.2.2⟩, fun h => ⟨h.ordered, h.start_boundary, h.stop_boundary⟩⟩

end Span

/-- The nodes of a tree lie on its source and contain their children, and receivers end before
callees. -/
structure Tree.Spaced (t : Tree) : Prop where
  on_source : ∀ id, (t.span id).OnSource t.source.toList
  nested : t.Nested
  receiver_first : ∀ id r c args l, t.shape id = .call (some r) c args l →
    (t.span r).stop ≤ (t.span c).start

namespace Kotlin

open Reading Outline

/-- Rows as a parser gives them: on the source, with children inside and siblings in order. -/
inductive Row.WellPlaced (source : List Char) : Row → Prop where
  | intro {r : Row} : r.span.OnSource source → (∀ c ∈ r.children, r.span.contains c.span = true) →
      r.children.Pairwise (fun a b => a.span.stop ≤ b.span.start) →
      (∀ c ∈ r.children, WellPlaced source c) → WellPlaced source r

private theorem Row.wellPlaced_iff {source : List Char} {r : Row} :
    r.WellPlaced source ↔ r.span.OnSource source ∧
      (∀ c ∈ r.children, r.span.contains c.span = true) ∧
      r.children.Pairwise (fun a b => a.span.stop ≤ b.span.start) ∧
      ∀ c ∈ r.children, c.WellPlaced source := by
  constructor
  · intro h
    cases h with
    | intro hspan hinside horder hbelow => exact ⟨hspan, hinside, horder, hbelow⟩
  · rintro ⟨hspan, hinside, horder, hbelow⟩
    exact .intro hspan hinside horder hbelow

theorem Row.WellPlaced.nests {source : List Char} {r : Row} (h : r.WellPlaced source) : r.Nests := by
  induction h with
  | intro _ hinside _ _ ih => exact .intro hinside ih

mutual

def Row.decideWellPlaced (source : List Char) : (r : Row) → Decidable (r.WellPlaced source)
  | .mk kind named span side children =>
    have : Decidable (∀ c ∈ (Row.mk kind named span side children).children, c.WellPlaced source) :=
      decideAllWellPlaced source children
    decidable_of_iff _ Row.wellPlaced_iff.symm

def decideAllWellPlaced (source : List Char) :
    (rows : List Row) → Decidable (∀ r ∈ rows, r.WellPlaced source)
  | [] => isTrue (by simp)
  | r :: rest =>
    have := r.decideWellPlaced source
    have := decideAllWellPlaced source rest
    decidable_of_iff _ List.forall_mem_cons.symm

end

instance (source : List Char) (r : Row) : Decidable (r.WellPlaced source) :=
  r.decideWellPlaced source

def Row.over (kind : String) (start stop : Nat) (children : List Row) : Row :=
  .mk kind true ⟨start, stop⟩ none children

def Row.token (kind : String) (start stop : Nat) : Row :=
  .mk kind false ⟨start, stop⟩ none []

/-- A row under a well placed one that ends within a span, with all nodes that it becomes. -/
structure Reading.Settled (source : List Char) (within : Span) (r : Reading) : Prop where
  on_source : r.span.OnSource source
  inside : within.contains r.span = true
  children_inside : ∀ c ∈ r.children, r.span.contains c.span = true
  in_order : r.children.Pairwise fun a b => a.span.stop ≤ b.span.start
  roots : ∀ s ∈ r.outline.roots, within.contains s = true
  call_roots : ∀ o ∈ r.call, ∀ s ∈ o.roots, within.contains s = true

section Settled

variable {source : List Char} {rows : List Reading} {span : Span}

private theorem settled_read {row : Row} (h : row.WellPlaced source) :
    Throughout (Settled source row.span) (row.read source) := by
  have hplaced : Throughout (fun r => r.span.OnSource source ∧
      r.children.Pairwise fun a b => a.span.stop ≤ b.span.start) (row.read source) := by
    refine Throughout.read (G := Row.WellPlaced source) ?_ ?_ h
    · exact fun row hrow => (Row.wellPlaced_iff.mp hrow).2.2.2
    · intro row hrow _
      obtain ⟨hspan, _, horder, _⟩ := Row.wellPlaced_iff.mp hrow
      rw [Row.read_span, Row.read_children, List.pairwise_map]
      simp only [Row.read_span]
      exact ⟨hspan, horder⟩
  refine (hplaced.and (inside_read source h.nests)).imp ?_
  rintro r ⟨⟨hspan, horder⟩, hinside⟩
  exact ⟨hspan, hinside.inside, hinside.children_inside, horder, hinside.roots, hinside.call_roots⟩

private theorem navigation_in_order (h : ∀ r ∈ rows, Throughout (Settled source span) r)
    (horder : rows.Pairwise fun a b => a.span.stop ≤ b.span.start) {receiver selector : Reading}
    (hn : navigationParts? rows = some (receiver, selector)) :
    receiver.span.stop ≤ selector.span.start := by
  obtain ⟨last, hsub, _, hsel⟩ := navigationParts?_spec hn
  have hfirst : receiver.span.stop ≤ last.span.start := by
    simpa using horder.sublist hsub
  rcases hsel with rfl | ⟨_, hsel⟩
  · exact hfirst
  · have hlast := (h last (hsub.subset (by simp))).here
    have := (Span.contains_iff.mp (hlast.children_inside selector hsel)).1
    omega

end Settled

/-! ## Outlines -/

/-- The node of an item lies on the source and contains the nodes of its parts; a receiver is one
node and ends before the callee. -/
structure Outline.Fits (source : List Char) (o : Outline) : Prop where
  on_source : ∀ s, o.nodeSpan? = some s → s.OnSource source
  inside : ∀ s, o.nodeSpan? = some s → ∀ c ∈ o.parts, ∀ root ∈ c.roots, s.contains root = true
  receiver_first : ∀ s receiver callee args trailing,
    o = .call s (some receiver) callee args trailing →
      ∃ root, receiver.roots = [root] ∧ root.stop ≤ callee.span.start

section Fits

variable {source : List Char} {rows : List Reading} {span : Span}

private theorem fits_node {o : Outline} {s : Span} (hspan : o.nodeSpan? = some s)
    (hs : s.OnSource source) (hcovers : o.Covers) (hcall : ∀ s r c args l, o ≠ .call s r c args l) :
    o.Fits source where
  on_source s' hs' := by
    rw [hspan] at hs'
    cases hs'
    exact hs
  inside := hcovers
  receiver_first s' r c args l ho := absurd ho (hcall s' (some r) c args l)

private theorem fits_bare {o : Outline} (hspan : o.nodeSpan? = none) : o.Fits source where
  on_source := by simp [hspan]
  inside := by simp [hspan]
  receiver_first s' r c args l ho := by
    rw [ho] at hspan
    cases hspan

/-- In a call that covers its parts, it remains that the receiver ends before the callee. -/
private theorem CallReads.fits {o : Outline} (hr : CallReads source span rows o)
    (hspan : span.OnSource source)
    (hcovers : o.Covers) (hset : ∀ r ∈ rows, Throughout (Settled source span) r)
    (h : ∀ r ∈ rows, Throughout (Carries (Fits source) source) r) : o.Fits source := by
  refine ⟨?_, hcovers, ?_⟩
  · intro s hs
    cases hr <;> cases hs <;> exact hspan
  · intro s receiver callee args trailing ho
    cases hr with
    | @merged head rest s' receiver' callee' inner body hparts _ _ hcall _ =>
      cases ho
      have hfits := ((throughout_callPart h (by simp [hparts])).here.call _ hcall).here
      exact hfits.receiver_first s' receiver callee args none rfl
    | plain => cases ho
    | @qualified head rest receiver' selector hparts _ hnav =>
      cases ho
      have hhead := throughout_callPart hset (show head ∈ callParts rows by simp [hparts])
      exact ⟨receiver'.span, roots_expression receiver',
        navigation_in_order hhead.inside hhead.here.in_order hnav⟩

private theorem ReadsAs.fits {call : Option Outline} {kind : String} {o : Outline}
    {passed : List Reading} (hr : ReadsAs source span call rows kind o passed)
    (hspan : span.OnSource source) (hcovers : o.Covers) (hcall : ∀ q ∈ call, q.Fits source)
    (h : ∀ r ∈ rows, Throughout (Carries (Fits source) source) r) : o.Fits source := by
  cases hr with
  | nothing | package | imported | group | function | property | parameter => exact fits_bare rfl
  | call hc => exact hcall o hc
  | annotated hf => exact (firstIn?_spec h hf).2.here.outline.here
  | word | navigation | sum | parenthesized | lambda => exact fits_node rfl hspan hcovers (by simp)
  | classDecl => exact fits_node rfl hspan hcovers (by simp [readClass])

private theorem carries_fits {row : Row} (h : row.WellPlaced source) :
    Throughout (Carries (Fits source) source) (row.read source) := by
  refine carries_read (G := Row.WellPlaced source) ?_ ?_ h
  · intro row hrow
    cases hrow with
    | intro _ _ _ hbelow => exact hbelow
  intro row hrow hchildren
  have hsettled := settled_read hrow
  have hcovers := (carries_covers source hrow.nests).here
  have hown : row.span.OnSource source := by simpa using hsettled.here.on_source
  have hset : ∀ r ∈ row.children.map (Row.read source), Throughout (Settled source row.span) r := by
    simpa using hsettled.inside
  have hrows : ∀ r ∈ row.children.map (Row.read source), Throughout _ r :=
    List.forall_mem_map.mpr hchildren
  have hcall : ∀ o ∈ (row.read source).call, o.Fits source := by
    intro o ho
    have hc := (hcovers.call o ho).here
    rw [Row.read_call] at ho
    split at ho
    · exact (callReads_of_readCall? ho).fits hown hc hset hrows
    · cases ho
  have houtline : (row.read source).outline.Fits source := by
    have hc := hcovers.outline.here
    rw [Row.read_outline] at hc ⊢
    exact (readRow_readsAs _ _ _ _ _).fits hown hc hcall hrows
  refine ⟨houtline, ?_, hcall, ?_⟩
  · have hc := hcovers.expression.here
    revert hc
    unfold expression single
    split
    · exact fun _ => houtline
    · exact fun hc => fits_node rfl (by rwa [Row.read_span]) hc (by simp)
  · intro o ho
    have hc := (hcovers.argument o ho).here
    obtain ⟨label, value, hv, rfl⟩ := readArgument?_spec ho
    exact fits_node rfl (by rwa [Row.read_span]) hc (by simp)

end Fits

/-! ## Nodes -/

end Kotlin

/-- What `Tree.Spaced` asks of one node, in an arena. -/
structure Arena.Fair (source : List Char) (a : Arena) (i : Nat) : Prop where
  on_source : (a.node i).span.OnSource source
  inside : ∀ c ∈ (a.node i).children, (a.node i).span.contains (a.node c).span = true
  receiver_first : ∀ r c args l, (a.node i).shape = .call (some r) c args l →
    (a.node r).span.stop ≤ (a.node c).span.start

private theorem Tree.Spaced.of_fair {t : Tree} (h : ∀ i, t.arena.Fair t.source.toList i) : t.Spaced :=
  ⟨fun i => (h i).on_source, fun i c hc => (h i).inside c hc,
    fun i r c args l => (h i).receiver_first r c args l⟩

theorem Arena.Fair.congr {source : List Char} {a b : Arena} {i : Nat} (h : a.Fair source i)
    (hab : ∀ j ≤ i, ∃ p, b.node j = { a.node j with parent := p }) : b.Fair source i := by
  have hspan {j : Nat} (hj : j ≤ i) : (b.node j).span = (a.node j).span := by
    obtain ⟨p, hp⟩ := hab j hj
    rw [hp]
  obtain ⟨p, hp⟩ := hab i (Nat.le_refl i)
  have hchild {c : Nat} (hc : c ∈ (b.node i).children) : c ≤ i := Nat.le_of_lt (children_lt hc)
  have hpart {c : Nat} (hc : c ∈ (b.node i).shape.parts) : c ≤ i := Nat.le_of_lt (parts_lt hc)
  constructor
  case on_source =>
    rw [hspan (Nat.le_refl i)]
    exact h.on_source
  case inside =>
    intro c hc
    rw [hspan (Nat.le_refl i), hspan (hchild hc)]
    rw [hp] at hc
    exact h.inside c hc
  case receiver_first =>
    intro r c args l hshape
    rw [hspan (hpart (by simp [hshape, Shape.parts])), hspan (hpart (by simp [hshape, Shape.parts]))]
    rw [hp] at hshape
    exact h.receiver_first r c args l hshape

namespace Kotlin

open Outline

private theorem fair_add {source : List Char} {a b : Arena} {o : Outline} {xs extra : List Nat}
    {span : Span} {shape : Shape} (hspan : o.nodeSpan? = some span) (hshape : o.Shapes shape)
    (hids : shape.parts ++ extra = xs) (hlays : Lays o.parts a xs b) (hf : o.Fits source) :
    (b.add shape span extra).Fair source b.size := by
  have hplaced := hlays.placed
  have hlt := hplaced.grows.childrenOf_lt hids
  have hself : (b.add shape span extra).node b.size = _ := Arena.node_add_self hlt
  have hold {i : Nat} (hi : i < b.size) :
      ((b.add shape span extra).node i).span = (b.node i).span := Arena.span_add_lt hlt hi
  constructor
  case on_source =>
    rw [hself]
    exact hf.on_source span hspan
  case inside =>
    intro c hc
    rw [hself] at hc ⊢
    exact contains_add hspan hids hlays hf.inside c hc
  case receiver_first =>
    intro r c args l hcall
    rw [hself] at hcall
    subst hcall
    cases o <;> simp only [Shapes, reduceCtorEq, exists_const] at hshape
    case call s receiver callee as trailing =>
      obtain ⟨r', c', as', l', heq, hr, _⟩ := hshape
      cases heq
      cases receiver with
      | none => cases hr
      | some receiver =>
        obtain ⟨root, hroots, hle⟩ := hf.receiver_first s receiver callee as trailing rfl
        have hspans := hplaced.spans
        rw [← hids] at hspans
        simp only [Shape.parts, parts, Option.toList_some, List.cons_append, List.nil_append,
          List.map_cons, List.flatMap_cons, hroots, Outline.roots, List.cons.injEq] at hspans
        rw [hold (hlt r (by simp [Shape.parts])), hold (hlt c (by simp [Shape.parts])),
          hspans.1, hspans.2.1]
        exact hle

private theorem Outline.StandsFor.fair {source : List Char} {c : Arena} {i : Nat}
    (h : StandsFor (Fits source) c i) : c.Fair source i := by
  cases h with
  | intro hf hspan hshape hids hlays hnodes =>
    exact (fair_add hspan hshape hids hlays hf).congr hnodes

theorem layout_spaced {source : String} {root : Row} (h : root.WellPlaced source.toList) :
    (layout source root).tree.Spaced := by
  obtain ⟨hspan, _, _, hbelow⟩ := Row.wellPlaced_iff.mp h
  have hwhole : Span.OnSource source.toList ⟨0, Text.byteLength source.toList⟩ :=
    ⟨Nat.zero_le _, Text.isBoundary_zero _, Text.isBoundary_byteLength _⟩
  have hroot : Span.contains ⟨0, Text.byteLength source.toList⟩ root.span = true :=
    Span.contains_iff.mpr ⟨Nat.zero_le _, Text.isBoundary_le hspan.stop_boundary⟩
  have hfile : (fileOutline source.toList root).Fits source.toList :=
    fits_node rfl hwhole (covers_fileOutline h.nests hroot) (by simp [fileOutline])
  have hfits : (fileOutline source.toList root).Everywhere (Fits source.toList) :=
    everywhere_fileOutline hfile (fits_bare rfl) fun row hrow =>
      (carries_fits (hbelow row hrow)).here.outline
  refine .of_fair fun i => ?_
  by_cases hi : i < (layout source root).tree.size
  · exact (layout_standsFor source root hfits hi).fair
  · -- Behind the root there are no nodes.
    have hnone : (layout source root).tree.arena.node i = _ := Arena.node_of_size_le (Nat.not_lt.mp hi)
    constructor
    case on_source =>
      rw [hnone]
      exact ⟨Nat.zero_le _, Text.isBoundary_zero _, Text.isBoundary_zero _⟩
    case inside => simp [hnone]
    case receiver_first => simp [hnone]

/-! ## Navigations -/

open Reading

def Outline.SelectsBehind (o : Outline) : Prop :=
  ∀ s receiver selector, o = .navigation s receiver selector →
    ∃ root, receiver.roots = [root] ∧ root.stop ≤ selector.span.start

private theorem CallReads.selectsBehind {source : List Char} {span : Span} {rows : List Reading} {o : Outline}
    (hr : CallReads source span rows o) : o.SelectsBehind := by
  intro s receiver selector ho
  cases hr <;> cases ho

private theorem ReadsAs.selectsBehind {source : List Char} {span : Span} {rows : List Reading}
    {call : Option Outline} {kind : String} {o : Outline} {passed : List Reading}
    (hr : ReadsAs source span call rows kind o passed)
    (horder : rows.Pairwise fun a b => a.span.stop ≤ b.span.start)
    (hset : ∀ r ∈ rows, Throughout (Settled source span) r) (hcall : ∀ q ∈ call, q.SelectsBehind)
    (h : ∀ r ∈ rows, Throughout (Carries SelectsBehind source) r) : o.SelectsBehind := by
  intro s receiver selector ho
  cases hr with
  | call hc => exact hcall o hc s receiver selector ho
  | annotated hf => exact (firstIn?_spec h hf).2.here.outline.here s receiver selector ho
  | @navigation receiver' selector' hn =>
    cases ho
    exact ⟨receiver'.span, roots_expression receiver', navigation_in_order hset horder hn⟩
  | _ => cases ho

private theorem carries_selectsBehind {source : List Char} {row : Row} (h : row.WellPlaced source) :
    Throughout (Carries SelectsBehind source) (row.read source) := by
  refine carries_read (G := Row.WellPlaced source) ?_ ?_ h
  · exact fun row hrow => (Row.wellPlaced_iff.mp hrow).2.2.2
  intro row hrow hchildren
  have hsettled := settled_read hrow
  have horder := hsettled.here.in_order
  have hset := hsettled.inside
  rw [Row.read_children] at horder hset
  have hrows : ∀ r ∈ row.children.map (Row.read source), Throughout _ r :=
    List.forall_mem_map.mpr hchildren
  have hcall : ∀ o ∈ (row.read source).call, o.SelectsBehind := by
    intro o ho
    rw [Row.read_call] at ho
    split at ho
    · exact (callReads_of_readCall? ho).selectsBehind
    · cases ho
  have houtline : (row.read source).outline.SelectsBehind := by
    rw [Row.read_outline]
    exact (readRow_readsAs _ _ _ _ _).selectsBehind horder hset hcall hrows
  refine ⟨houtline, ?_, hcall, ?_⟩
  · unfold expression single
    split
    · exact houtline
    · intro s receiver selector ho
      cases ho
  · intro o ho s receiver selector hnav
    obtain ⟨label, value, _, rfl⟩ := readArgument?_spec ho
    cases hnav

private theorem Outline.StandsFor.receiver_le_selector {c : Arena} {nav r n : Nat}
    (h : StandsFor SelectsBehind c nav) (hnav : (c.node nav).shape = .navigation r n) :
    (c.node r).span.stop ≤ (c.node n).span.start := by
  cases h with
  | @intro o a b xs extra span shape hselects hspan hshape hids hlays hnodes =>
    have hplaced := hlays.placed
    have hlt := hplaced.grows.childrenOf_lt hids
    have hold {i : Nat} (hi : i < b.size) : (c.node i).span = (b.node i).span := by
      obtain ⟨p, hp⟩ := hnodes i (Nat.le_of_lt hi)
      rw [hp]
      exact Arena.span_add_lt hlt hi
    obtain ⟨p, hp⟩ := hnodes b.size (Nat.le_refl _)
    rw [hp, Arena.node_add_self hlt] at hnav
    change shape = .navigation r n at hnav
    subst hnav
    cases o <;> simp only [Shapes, reduceCtorEq, false_and, exists_const] at hshape
    case navigation s receiver selector =>
      obtain ⟨root, hroots, hle⟩ := hselects s receiver selector rfl
      have hspans := hplaced.spans
      rw [← hids] at hspans
      simp only [Shape.parts, parts, List.cons_append, List.nil_append, List.map_cons,
        List.flatMap_cons, hroots, Outline.roots, List.cons.injEq] at hspans
      rw [hold (hlt r (by simp [Shape.parts])), hold (hlt n (by simp [Shape.parts])), hspans.1,
        hspans.2.1]
      exact hle

theorem layout_receiver_le_selector {source : String} {root : Row} (h : root.WellPlaced source.toList)
    {nav r n : Nat} (hshape : (layout source root).tree.shape nav = .navigation r n) :
    ((layout source root).tree.span r).stop ≤ ((layout source root).tree.span n).start := by
  have heverywhere : (fileOutline source.toList root).Everywhere SelectsBehind := by
    refine everywhere_fileOutline (by simp [SelectsBehind, fileOutline]) (by simp [SelectsBehind]) ?_
    intro row hrow
    exact (carries_selectsBehind ((Row.wellPlaced_iff.mp h).2.2.2 row hrow)).here.outline
  have hlt : nav < (layout source root).tree.size := Tree.lt_size_of_shape (by simp [hshape])
  have hstands := layout_standsFor source root heverywhere hlt
  -- What the tree is made of no longer matters.
  generalize (layout source root).tree = t at hshape hstands ⊢
  exact hstands.receiver_le_selector hshape

end Kotlin
end CoroutineCheck

import CoroutineCheck.Proofs.Kotlin.Operands
/-!
# Containment

Where rows lie inside the rows above them, so do the nodes that they become: what a row is read as stays
within the row, and a node contains the nodes of its parts. Children are listed by where they begin,
whatever the rows are.
-/
namespace CoroutineCheck

namespace Kotlin

open Reading Outline

/-- Rows that contain the rows below them. -/
inductive Row.Nests : Row → Prop where
  | intro {r : Row} : (∀ c ∈ r.children, r.span.contains c.span = true) →
      (∀ c ∈ r.children, Nests c) → Nests r

theorem Row.Nests.inner {r : Row} (h : r.Nests) : ∀ c ∈ r.children, c.Nests := by
  cases h with
  | intro _ hbelow => exact hbelow

/-- A row within a span, with its children inside and with all nodes that it becomes. -/
structure Reading.Inside (within : Span) (r : Reading) : Prop where
  inside : within.contains r.span = true
  children_inside : ∀ c ∈ r.children, r.span.contains c.span = true
  roots : ∀ s ∈ r.outline.roots, within.contains s = true
  call_roots : ∀ o ∈ r.call, ∀ s ∈ o.roots, within.contains s = true

theorem Reading.Inside.widen {a b : Span} {r : Reading} (h : r.Inside b) (hab : a.contains b = true) :
    r.Inside a where
  inside := Span.contains_trans hab h.inside
  children_inside := h.children_inside
  roots s hs := Span.contains_trans hab (h.roots s hs)
  call_roots o ho s hs := Span.contains_trans hab (h.call_roots o ho s hs)

section Inside

variable {source : List Char} {rows : List Reading} {span : Span}

private theorem outlines_inside {rs : List Reading} (h : ∀ r ∈ rs, Throughout (Inside span) r) :
    ∀ o ∈ outlines rs, ∀ s ∈ o.roots, span.contains s = true := by
  intro o ho
  obtain ⟨r, hr, rfl⟩ := List.mem_map.mp ho
  exact (h r hr).here.roots

private theorem roots_outlines (h : ∀ r ∈ rows, Throughout (Inside span) r) {rs : List Reading}
    (hs : ∀ r ∈ rs, r ∈ rows) : ∀ s ∈ (outlines rs).flatMap Outline.roots, span.contains s = true := by
  intro s hmem
  obtain ⟨o, ho, hmem⟩ := List.mem_flatMap.mp hmem
  exact outlines_inside (fun r hr => h r (hs r hr)) o ho s hmem

private theorem ReadsAs.roots_within {call : Option Outline} {kind : String} {o : Outline}
    {passed : List Reading} (hr : ReadsAs source span call rows kind o passed)
    (hcall : ∀ q ∈ call, ∀ s ∈ q.roots, span.contains s = true)
    (h : ∀ r ∈ rows, Throughout (Inside span) r) :
    ∀ s ∈ o.roots, span.contains s = true := by
  cases hr with
  | word | navigation | sum | parenthesized | lambda | classDecl => simp [Outline.roots, readClass]
  | package | imported => simp [Outline.roots]
  | nothing => simp [Outline.roots, Outline.nothing]
  | group =>
    rw [Outline.roots, rootsAll_eq]
    exact roots_outlines h fun r hr => mem_of_mem_namedOf hr
  | call hc => exact hcall o hc
  | annotated hf => exact (firstIn?_spec h hf).2.here.roots
  | function =>
    rw [readFunction, Outline.roots, rootsAll_eq]
    exact roots_outlines h fun r hr => List.mem_of_mem_eraseP (mem_of_mem_namedOf hr)
  | property =>
    have hall : (propertyParts source false ⟨none, [], none, []⟩ rows).All
        (fun o => ∀ s ∈ o.roots, span.contains s = true) := by
      refine all_propertyParts (fun r hr => ⟨(h r hr).here.roots, ?_⟩) false
        ⟨by simp, by simp, by simp⟩
      simpa using (h r hr).here.inside
    intro s hs
    simp only [readProperty, Outline.roots, rootsAll_eq, rootsOption_eq, List.mem_append,
      List.mem_flatMap, Option.mem_toList] at hs
    rcases hs with (⟨o, ho, hs⟩ | ⟨o, ho, hs⟩) | ⟨o, ho, hs⟩
    · exact hall.before o ho s hs
    · exact hall.initializer o ho s hs
    · exact hall.after o ho s hs
  | parameter =>
    simp only [readParameter, Outline.roots, rootsAll_eq, rootsOption_eq, Option.toList_none,
      List.flatMap_nil, List.append_nil]
    exact roots_outlines h fun r hr => mem_of_mem_namedOf (List.mem_of_mem_eraseP hr)

private theorem CallReads.roots_eq {o : Outline} (h : CallReads source span rows o) : o.roots = [span] := by
  cases h <;> rfl

theorem inside_read (source : List Char) {row : Row} (h : row.Nests) :
    Throughout (Inside row.span) (row.read source) := by
  induction h with
  | @intro row hinside hbelow ih =>
    have hrows : ∀ r ∈ row.children.map (Row.read source), Throughout (Inside row.span) r :=
      List.forall_mem_map.mpr fun c hc => (ih c hc).imp fun r hr => hr.widen (hinside c hc)
    have hcall : ∀ o ∈ (row.read source).call, ∀ s ∈ o.roots, row.span.contains s = true := by
      intro o ho
      rw [Row.read_call] at ho
      split at ho
      · simp [(callReads_of_readCall? ho).roots_eq]
      · cases ho
    refine .intro ⟨?_, ?_, ?_, hcall⟩ ?_
    · simp
    · simpa using hinside
    · rw [Row.read_outline]
      exact (readRow_readsAs _ _ _ _ _).roots_within hcall hrows
    · rwa [Row.read_children]

end Inside

/-! ## Outlines -/

/-- The node of an item contains the nodes of its parts. -/
def Outline.Covers (o : Outline) : Prop :=
  ∀ s, o.nodeSpan? = some s → ∀ c ∈ o.parts, ∀ root ∈ c.roots, s.contains root = true

section Covers

variable {source : List Char} {rows : List Reading} {span : Span}

private theorem covers_node {o : Outline} {s : Span} (hspan : o.nodeSpan? = some s)
    (hparts : ∀ c ∈ o.parts, ∀ root ∈ c.roots, s.contains root = true) : o.Covers := by
  intro s' hs'
  rw [hspan] at hs'
  cases hs'
  exact hparts

private theorem covers_bare {o : Outline} (hspan : o.nodeSpan? = none) : o.Covers := by
  intro s hs
  rw [hspan] at hs
  cases hs

private theorem covers_call {receiver trailing : Option Outline} {callee : Word} {args : List Outline}
    (hreceiver : ∀ r ∈ receiver, ∀ root ∈ r.roots, span.contains root = true)
    (hcallee : span.contains callee.span = true)
    (hargs : ∀ o ∈ args, ∀ root ∈ o.roots, span.contains root = true)
    (htrailing : ∀ o ∈ trailing, ∀ root ∈ o.roots, span.contains root = true) :
    (Outline.call span receiver callee args trailing).Covers := by
  apply covers_node rfl
  intro c hc root hroot
  simp only [parts, List.mem_append, List.mem_cons, Option.mem_toList] at hc
  rcases hc with hc | rfl | hc | hc
  · exact hreceiver c hc root hroot
  · cases List.mem_singleton.mp hroot
    exact hcallee
  · exact hargs c hc root hroot
  · exact htrailing c hc root hroot

private theorem expression_inside {r : Reading} (h : Throughout (Inside span) r) :
    ∀ root ∈ r.expression.roots, span.contains root = true := by
  intro root hroot
  rw [roots_expression] at hroot
  cases List.mem_singleton.mp hroot
  exact h.here.inside

theorem CallReads.covers {o : Outline} (hr : CallReads source span rows o)
    (hin : ∀ r ∈ rows, Throughout (Inside span) r)
    (h : ∀ r ∈ rows, Throughout (Carries Covers source) r) : o.Covers := by
  have hpart {part : Reading} (hp : part ∈ callParts rows) : Throughout (Inside span) part :=
    throughout_callPart hin hp
  have hargs {rest : List Reading} (hrest : ∀ r ∈ rest, r ∈ callParts rows) :
      ∀ o ∈ argumentsIn source rest, ∀ root ∈ o.roots, span.contains root = true := by
    intro o ho root hroot
    obtain ⟨r, hr, c, hc, hco⟩ := mem_argumentsIn ho
    obtain ⟨label, value, _, rfl⟩ := readArgument?_spec hco
    cases List.mem_singleton.mp hroot
    exact ((hpart (hrest r hr)).inside c hc).here.inside
  have htrailing {rest : List Reading} (hrest : ∀ r ∈ rest, r ∈ callParts rows) :
      ∀ o ∈ trailingIn rest, ∀ root ∈ o.roots, span.contains root = true := by
    intro o ho
    obtain ⟨r, hr, _, rfl⟩ := mem_trailingIn ho
    exact (hpart (hrest r hr)).here.roots
  cases hr with
  | @merged head rest s receiver callee inner body hparts _ _ hcall hbody =>
    have hrest : ∀ r ∈ rest, r ∈ callParts rows := by simp_all
    have hhead : head ∈ callParts rows := by simp [hparts]
    have hcovers := ((throughout_callPart h hhead).here.call _ hcall).here
    -- The inner call lies within its own row, and that row within this one.
    have hs : span.contains s = true :=
      (hpart hhead).here.call_roots _ hcall s (by simp [Outline.roots])
    have hinner {c : Outline} (hc : c ∈ (Outline.call s receiver callee inner none).parts) :
        ∀ root ∈ c.roots, span.contains root = true :=
      fun root hroot => Span.contains_trans hs (hcovers s rfl c hc root hroot)
    refine covers_call ?_ ?_ ?_ ?_
    · exact fun r hr => hinner (by simp_all [parts])
    · exact hinner (c := .word callee) (by simp [parts]) _ (by simp [Outline.roots])
    · exact fun o ho => hinner (by simp [parts, ho])
    · exact fun o ho => htrailing hrest o (Option.mem_some.mp ho ▸ hbody)
  | @plain head rest hparts hid =>
    have hrest : ∀ r ∈ rest, r ∈ callParts rows := by simp_all
    have hhead := hpart (show head ∈ callParts rows by simp [hparts])
    exact covers_call (by simp) hhead.here.inside (hargs hrest) (htrailing hrest)
  | @qualified head rest receiver selector hparts _ hnav =>
    have hrest : ∀ r ∈ rest, r ∈ callParts rows := by simp_all
    have hhead := hpart (show head ∈ callParts rows by simp [hparts])
    obtain ⟨hreceiver, hselector⟩ := throughout_navigation hhead.inside hnav
    refine covers_call ?_ hselector.here.inside (hargs hrest) (htrailing hrest)
    intro r hr
    cases hr
    exact expression_inside hreceiver

theorem ReadsAs.covers {call : Option Outline} {kind : String} {o : Outline}
    {passed : List Reading} (hr : ReadsAs source span call rows kind o passed)
    (hcall : ∀ q ∈ call, q.Covers) (hin : ∀ r ∈ rows, Throughout (Inside span) r)
    (h : ∀ r ∈ rows, Throughout (Carries Covers source) r) : o.Covers := by
  cases hr with
  | word => exact covers_node rfl (by simp [parts])
  | nothing | package | imported | group | function | property | parameter => exact covers_bare rfl
  | call hc => exact hcall o hc
  | navigation hn =>
    obtain ⟨hreceiver, hselector⟩ := throughout_navigation hin hn
    apply covers_node rfl
    intro c hc root hroot
    simp only [parts, List.mem_cons, List.not_mem_nil, or_false] at hc
    rcases hc with rfl | rfl
    · exact expression_inside hreceiver root hroot
    · cases List.mem_singleton.mp hroot
      exact hselector.here.inside
  | sum hs =>
    obtain ⟨hl, hr⟩ := mem_of_operationSides? hs
    apply covers_node rfl
    intro c hc
    simp only [parts, List.mem_cons, List.not_mem_nil, or_false] at hc
    rcases hc with rfl | rfl
    · exact expression_inside (hin _ hl)
    · exact expression_inside (hin _ hr)
  | parenthesized hi =>
    have hinner := hin _ (mem_of_mem_namedOf (List.mem_of_head? hi))
    exact covers_node rfl (List.forall_mem_singleton.mpr (expression_inside hinner))
  | lambda => exact covers_node rfl (outlines_inside fun r hr => hin r (mem_of_mem_namedOf hr))
  | annotated hf => exact (firstIn?_spec h hf).2.here.outline.here
  | classDecl =>
    refine covers_node rfl (outlines_inside fun r hr => hin r ?_)
    exact mem_of_mem_namedOf (List.mem_of_mem_eraseP (List.mem_filter.mp hr).1)

/-- Everything that nesting rows are read as covers its parts. -/
theorem carries_covers (source : List Char) {row : Row} (h : row.Nests) :
    Throughout (Carries Covers source) (row.read source) := by
  refine carries_read (G := Row.Nests) (fun _ => Row.Nests.inner) ?_ h
  intro row hrow hchildren
  have hinside := inside_read source hrow
  have hin : ∀ r ∈ row.children.map (Row.read source), Throughout (Inside row.span) r := by
    simpa using hinside.inside
  have hrows : ∀ r ∈ row.children.map (Row.read source), Throughout _ r :=
    List.forall_mem_map.mpr hchildren
  have hcall : ∀ o ∈ (row.read source).call, o.Covers := by
    intro o ho
    rw [Row.read_call] at ho
    split at ho
    · exact (callReads_of_readCall? ho).covers hin hrows
    · cases ho
  have houtline : (row.read source).outline.Covers := by
    rw [Row.read_outline]
    exact (readRow_readsAs _ _ _ _ _).covers hcall hin hrows
  refine ⟨houtline, ?_, hcall, ?_⟩
  · unfold expression single
    split
    · exact houtline
    · apply covers_node rfl
      simpa [parts] using hinside.here.roots
  · intro o ho
    obtain ⟨label, value, hv, rfl⟩ := readArgument?_spec ho
    apply covers_node rfl
    simpa [parts] using hinside.here.children_inside value hv

end Covers

/-! ## Nodes -/

theorem contains_add {a b : Arena} {o : Outline} {xs extra : List Nat} {span : Span} {shape : Shape}
    (hspan : o.nodeSpan? = some span) (hids : shape.parts ++ extra = xs) (hlays : Lays o.parts a xs b)
    (ho : o.Covers) :
    ∀ c ∈ b.childrenOf shape extra, span.contains ((b.add shape span extra).node c).span = true := by
  have hplaced := hlays.placed
  have hlt := hplaced.grows.childrenOf_lt hids
  intro c hc
  rw [Arena.span_add_lt hlt (hlt c hc)]
  rw [Arena.mem_childrenOf, ← List.mem_append, hids] at hc
  have hroot : (b.node c).span ∈ o.parts.flatMap roots := hplaced.spans ▸ List.mem_map_of_mem hc
  obtain ⟨q, hq, hroot⟩ := List.mem_flatMap.mp hroot
  exact ho span hspan q hq _ hroot

theorem Outline.StandsFor.contains {c : Arena} {i : Nat} (h : StandsFor Covers c i) :
    ∀ j ∈ (c.node i).children, (c.node i).span.contains (c.node j).span = true := by
  cases h with
  | @intro o a b xs extra span shape ho hspan _ hids hlays hnodes =>
    have hlt := hlays.placed.grows.childrenOf_lt hids
    obtain ⟨p, hself⟩ := hnodes b.size (Nat.le_refl _)
    rw [Arena.node_add_self hlt] at hself
    intro j hj
    rw [hself] at hj ⊢
    obtain ⟨q, hchild⟩ := hnodes j (Nat.le_of_lt (hlt j hj))
    rw [hchild]
    exact contains_add hspan hids hlays ho j hj

private theorem Outline.StandsFor.children_in_order {P : Outline → Prop} {c : Arena} {i : Nat}
    (h : StandsFor P c i) :
    (c.node i).children.Pairwise fun x y => (c.node x).span.start ≤ (c.node y).span.start := by
  cases h with
  | @intro o a b xs extra span shape _ _ _ hids hlays hnodes =>
    have hlt := hlays.placed.grows.childrenOf_lt hids
    obtain ⟨p, hself⟩ := hnodes b.size (Nat.le_refl _)
    rw [hself, Arena.node_add_self hlt]
    have hspan {x : Nat} (hx : x ∈ b.childrenOf shape extra) : (c.node x).span = (b.node x).span := by
      obtain ⟨q, hchild⟩ := hnodes x (Nat.le_of_lt (hlt x hx))
      rw [hchild]
      exact Arena.span_add_lt hlt (hlt x hx)
    refine List.Pairwise.imp_of_mem ?_ (b.pairwise_inOrder _)
    intro x y hx hy hxy
    rwa [hspan hx, hspan hy]

section Tree

variable {t : Tree} {p : Nat}

private theorem no_children (hp : ¬ p < t.size) : t.children p = [] := by
  rw [Tree.children, Tree.node, Arena.node_of_size_le (Nat.not_lt.mp hp)]

private theorem nested_of_standsFor (h : ∀ i < t.size, StandsFor Covers t.arena i) : t.Nested := by
  intro p c hc
  by_cases hp : p < t.size
  · exact (h p hp).contains c hc
  · rw [no_children hp] at hc
    cases hc

private theorem in_order_of_standsFor {P : Outline → Prop}
    (h : ∀ i < t.size, StandsFor P t.arena i) (p : Nat) :
    (t.children p).Pairwise fun c d => (t.span c).start ≤ (t.span d).start := by
  by_cases hp : p < t.size
  · exact (h p hp).children_in_order
  · rw [no_children hp]
    exact .nil

end Tree

theorem covers_fileOutline {source : List Char} {root : Row} (h : root.Nests)
    (hroot : Span.contains ⟨0, Text.byteLength source⟩ root.span = true) :
    (fileOutline source root).Covers := by
  apply covers_node rfl
  refine List.forall_mem_singleton.mpr fun s hs => ?_
  rw [Outline.roots, rootsAll_eq] at hs
  obtain ⟨o, ho, hs⟩ := List.mem_flatMap.mp hs
  obtain ⟨row, hrow, rfl⟩ := mem_outlineOf ho
  have hinside := (inside_read source h).inside (row.read source) (by simpa using ⟨row, hrow, rfl⟩)
  exact Span.contains_trans hroot (hinside.here.roots s hs)

theorem layout_nested {source : String} {root : Row} (h : root.Nests)
    (hroot : Span.contains ⟨0, Text.byteLength source.toList⟩ root.span = true) :
    (layout source root).tree.Nested := by
  have hcovers : (fileOutline source.toList root).Everywhere Covers :=
    everywhere_fileOutline (covers_fileOutline h hroot) (covers_bare rfl) fun row hrow =>
      (carries_covers source.toList (h.inner row hrow)).here.outline
  exact nested_of_standsFor fun i hi => layout_standsFor source root hcovers hi

theorem layout_children_in_order (source : String) (root : Row) (p : Nat) :
    ((layout source root).tree.children p).Pairwise fun c d =>
      ((layout source root).tree.span c).start ≤ ((layout source root).tree.span d).start := by
  have hany : (fileOutline source.toList root).Everywhere fun _ => True :=
    everywhere_fileOutline trivial trivial fun row _ =>
      (carries_singleOperands source.toList row).here.outline.imp fun _ _ => trivial
  exact in_order_of_standsFor (fun i hi => layout_standsFor source root hany hi) p

end Kotlin
end CoroutineCheck

import CoroutineCheck.Proofs.Kotlin.Readings
/-!
# Properties of read outlines

A property of items holds everywhere in what a file is read as, once it is known of the items that
rows are read as themselves: the items inside those come from rows further down. The first such
property is that operands are single nodes; so every file is laid out as a rooted tree.
-/
namespace CoroutineCheck.Kotlin

open Reading Outline

namespace Reading

/-- Everything that a row can contribute to an outline has a property everywhere. -/
structure Carries (P : Outline → Prop) (source : List Char) (r : Reading) : Prop where
  outline : r.outline.Everywhere P
  expression : r.expression.Everywhere P
  call : ∀ o ∈ r.call, o.Everywhere P
  argument : ∀ o ∈ readArgument? source r, o.Everywhere P
  word : r.isIdentifier = true → (Outline.word (r.word source)).Everywhere P

/-- The property of each item that a row contributes itself. -/
structure Contributes (P : Outline → Prop) (source : List Char) (r : Reading) : Prop where
  outline : P r.outline
  expression : P r.expression
  call : ∀ o ∈ r.call, P o
  argument : ∀ o ∈ readArgument? source r, P o

end Reading

section Carries

variable {P : Outline → Prop} {source : List Char} {rows : List Reading} {span : Span}

private theorem everywhere_outlines (h : ∀ r ∈ rows, Throughout (Carries P source) r)
    {rs : List Reading} (hs : ∀ r ∈ rs, r ∈ rows) : ∀ o ∈ outlines rs, o.Everywhere P := by
  intro o ho
  obtain ⟨r, hr, rfl⟩ := List.mem_map.mp ho
  exact (h r (hs r hr)).here.outline

private theorem CallReads.everywhere_parts {o : Outline} (hr : CallReads source span rows o)
    (h : ∀ r ∈ rows, Throughout (Carries P source) r) : ∀ c ∈ o.parts, c.Everywhere P := by
  have hpart {part : Reading} (hp : part ∈ callParts rows) : Throughout (Carries P source) part :=
    throughout_callPart h hp
  have harg {rest : List Reading} (hrest : ∀ r ∈ rest, r ∈ callParts rows) :
      ∀ o ∈ argumentsIn source rest, o.Everywhere P := by
    intro o ho
    obtain ⟨r, hr, c, hc, hco⟩ := mem_argumentsIn ho
    exact ((hpart (hrest r hr)).inside c hc).here.argument o hco
  have htrailing {rest : List Reading} (hrest : ∀ r ∈ rest, r ∈ callParts rows) :
      ∀ o ∈ trailingIn rest, o.Everywhere P := by
    intro o ho
    obtain ⟨r, hr, _, rfl⟩ := mem_trailingIn ho
    exact (hpart (hrest r hr)).here.outline
  intro c hc
  cases hr with
  | @merged head rest s receiver callee inner body hparts _ _ hcall hbody =>
    have hrest : ∀ r ∈ rest, r ∈ callParts rows := by simp_all
    have hinner := ((hpart (by simp [hparts])).here.call _ hcall).inside c
    simp only [parts, List.mem_append, List.mem_cons, Option.mem_toList, reduceCtorEq, or_false,
      Option.some.injEq] at hc hinner
    rcases hc with hc | rfl | hc | rfl
    · exact hinner (.inl hc)
    · exact hinner (.inr (.inl rfl))
    · exact hinner (.inr (.inr hc))
    · exact htrailing hrest body hbody
  | @plain head rest hparts hid =>
    have hrest : ∀ r ∈ rest, r ∈ callParts rows := by simp_all
    simp only [parts, List.mem_append, List.mem_cons, Option.mem_toList, reduceCtorEq,
      false_or] at hc
    rcases hc with rfl | hc | hc
    · exact (hpart (by simp [hparts])).here.word hid
    · exact harg hrest c hc
    · exact htrailing hrest c hc
  | @qualified head rest receiver selector hparts _ hnav =>
    have hrest : ∀ r ∈ rest, r ∈ callParts rows := by simp_all
    obtain ⟨hreceiver, hselector⟩ := throughout_navigation (hpart (by simp [hparts])).inside hnav
    obtain ⟨_, _, hid, _⟩ := navigationParts?_spec hnav
    simp only [parts, List.mem_append, List.mem_cons, Option.mem_toList, Option.some.injEq] at hc
    rcases hc with rfl | rfl | hc | hc
    · exact hreceiver.here.expression
    · exact hselector.here.word hid
    · exact harg hrest c hc
    · exact htrailing hrest c hc

private theorem ReadsAs.everywhere_parts {call : Option Outline} {kind : String} {o : Outline}
    {passed : List Reading} (hr : ReadsAs source span call rows kind o passed)
    (hcall : ∀ q ∈ call, q.Everywhere P)
    (h : ∀ r ∈ rows, Throughout (Carries P source) r) : ∀ c ∈ o.parts, c.Everywhere P := by
  cases hr with
  | word | package | imported => simp [parts]
  | nothing => simp [parts, Outline.nothing]
  | group => exact everywhere_outlines h fun r hr => mem_of_mem_namedOf hr
  | call hc => exact (hcall o hc).inside
  | navigation hn =>
    obtain ⟨hreceiver, hselector⟩ := throughout_navigation h hn
    obtain ⟨_, _, hid, _⟩ := navigationParts?_spec hn
    intro c hc
    simp only [parts, List.mem_cons, List.not_mem_nil, or_false] at hc
    rcases hc with rfl | rfl
    · exact hreceiver.here.expression
    · exact hselector.here.word hid
  | sum hs =>
    obtain ⟨hl, hr⟩ := mem_of_operationSides? hs
    intro c hc
    simp only [parts, List.mem_cons, List.not_mem_nil, or_false] at hc
    rcases hc with rfl | rfl
    · exact (h _ hl).here.expression
    · exact (h _ hr).here.expression
  | parenthesized hi =>
    have hmem := mem_of_mem_namedOf (List.mem_of_head? hi)
    simpa [parts] using (h _ hmem).here.expression
  | lambda => exact everywhere_outlines h fun r hr => mem_of_mem_namedOf hr
  | annotated hf => exact (firstIn?_spec h hf).2.here.outline.inside
  | classDecl =>
    refine everywhere_outlines h fun r hr => ?_
    exact mem_of_mem_namedOf (List.mem_of_mem_eraseP (List.mem_filter.mp hr).1)
  | function =>
    exact everywhere_outlines h fun r hr => List.mem_of_mem_eraseP (mem_of_mem_namedOf hr)
  | property =>
    have hall : (propertyParts source false ⟨none, [], none, []⟩ rows).All (Everywhere P) :=
      all_propertyParts (fun r hr => ⟨(h r hr).here.outline, (h r hr).here.expression⟩) false
        ⟨by simp, by simp, by simp⟩
    intro c hc
    simp only [readProperty, parts, List.mem_append, Option.mem_toList] at hc
    rcases hc with (hc | hc) | hc
    · exact hall.before c hc
    · exact hall.initializer c hc
    · exact hall.after c hc
  | parameter =>
    intro c hc
    simp only [readParameter, parts, Option.toList_none, List.append_nil] at hc
    exact everywhere_outlines h
      (fun r hr => mem_of_mem_namedOf (List.mem_of_mem_eraseP hr)) c hc

/-- A property that rows contribute holds of everything that a file is read as; `G` is what is known
of the rows. -/
theorem carries_read {G : Row → Prop} (hG : ∀ row, G row → ∀ c ∈ row.children, G c)
    (h : ∀ row, G row → (∀ c ∈ row.children, Throughout (Carries P source) (c.read source)) →
      Contributes P source (row.read source)) {row : Row} (hrow : G row) :
    Throughout (Carries P source) (row.read source) := by
  refine Throughout.read hG ?_ hrow
  intro row hrow hall
  have hown := h row hrow hall
  have hrows : ∀ r ∈ row.children.map (Row.read source), Throughout (Carries P source) r := by
    intro r hr
    obtain ⟨c, hc, rfl⟩ := List.mem_map.mp hr
    exact hall c hc
  have hcall : ∀ o ∈ (row.read source).call, o.Everywhere P := by
    intro o ho
    refine .intro (hown.call o ho) ?_
    rw [Row.read_call] at ho
    split at ho
    · exact (callReads_of_readCall? ho).everywhere_parts hrows
    · cases ho
  have houtline : (row.read source).outline.Everywhere P := by
    refine .intro hown.outline ?_
    rw [Row.read_outline]
    exact (readRow_readsAs _ _ _ _ _).everywhere_parts hcall hrows
  refine ⟨houtline, ?_, hcall, ?_, ?_⟩
  · refine .intro hown.expression ?_
    unfold expression single
    split
    · exact houtline.inside
    · simpa [parts] using houtline
  · intro o ho
    refine .intro (hown.argument o ho) ?_
    obtain ⟨label, value, hv, rfl⟩ := readArgument?_spec ho
    rw [Row.read_children] at hv
    simpa [parts] using (hrows value hv).here.expression
  · intro hid
    rw [Row.read_outline, readRow_identifier (by simpa [isIdentifier] using hid)] at houtline
    simpa [Reading.word] using houtline

end Carries

/-! ## Single operands -/

@[simp] theorem roots_expression (r : Reading) : r.expression.roots = [r.span] := by
  unfold expression single
  split
  case isTrue h => simpa using h
  case isFalse => rfl

private theorem single_expression (r : Reading) : r.expression.Single := ⟨r.span, roots_expression r⟩

/-- A lambda is read over its row, an annotated one as the first literal inside if there is one. -/
private theorem readLambda_cases (kind : String) (span : Span) (rows : List Reading) :
    readLambda kind span rows = .lambda span (outlines (namedOf rows)) ∨
      ∃ found, firstIn? "lambda_literal" rows = some found ∧
        readLambda kind span rows = found.outline := by
  by_cases hk : kind = "annotated_lambda"
  · subst hk
    cases hf : firstIn? "lambda_literal" rows with
    | none => simp [readLambda, hf]
    | some found => simp [readLambda, hf]
  · simp [readLambda, hk]

private theorem single_lambda (source : List Char) (row : Row) :
    Throughout (fun r => lambdaKinds.contains r.kind = true → r.outline.Single)
      (row.read source) := by
  refine Throughout.read (G := fun _ => True) (fun _ _ _ _ => trivial) ?_ trivial
  intro row _ h hk
  rw [Row.read_kind] at hk
  rw [Row.read_outline, readRow_lambda hk]
  rcases readLambda_cases row.kind row.span (row.children.map (Row.read source)) with
    ho | ⟨found, hf, ho⟩
  · rw [ho]
    exact ⟨row.span, rfl⟩
  · have hrows : ∀ r ∈ row.children.map (Row.read source), Throughout _ r :=
      List.forall_mem_map.mpr h
    obtain ⟨hkind, hfound⟩ := firstIn?_spec hrows hf
    rw [ho]
    exact hfound.here (by rw [hkind]; decide)

section SingleOperands

variable {source : List Char} {rows : List Reading} {span : Span}

private theorem CallReads.singleOperands {o : Outline} (hr : CallReads source span rows o)
    (h : ∀ r ∈ rows, Throughout (Carries SingleOperands source) r)
    (hlambda : ∀ r ∈ rows,
      Throughout (fun r => lambdaKinds.contains r.kind = true → r.outline.Single) r) :
    o.SingleOperands := by
  have htrailing {head : Reading} {rest : List Reading} (hparts : callParts rows = head :: rest) :
      ∀ l ∈ trailingIn rest, l.Single := by
    intro l hl
    obtain ⟨r, hr, hk, rfl⟩ := mem_trailingIn hl
    exact (throughout_callPart hlambda (by simp [hparts, hr])).here hk
  cases hr with
  | merged hparts _ _ hcall hbody =>
    have hinner := ((throughout_callPart h (by simp [hparts])).here.call _ hcall).here
    exact ⟨hinner.1, hbody ▸ htrailing hparts⟩
  | plain hparts _ => exact ⟨by simp, htrailing hparts⟩
  | qualified hparts _ _ =>
    refine ⟨?_, htrailing hparts⟩
    intro r hr
    cases hr
    exact single_expression _

private theorem ReadsAs.singleOperands {call : Option Outline} {kind : String} {o : Outline}
    {passed : List Reading} (hr : ReadsAs source span call rows kind o passed)
    (hcall : ∀ q ∈ call, q.SingleOperands)
    (h : ∀ r ∈ rows, Throughout (Carries SingleOperands source) r) : o.SingleOperands := by
  cases hr with
  | call hc => exact hcall o hc
  | navigation => exact single_expression _
  | sum => exact ⟨single_expression _, single_expression _⟩
  | parenthesized => exact single_expression _
  | annotated hf => exact (firstIn?_spec h hf).2.here.outline.here
  | _ => trivial

end SingleOperands

theorem carries_singleOperands (source : List Char) (row : Row) :
    Throughout (Carries SingleOperands source) (row.read source) := by
  refine carries_read (G := fun _ => True) (fun _ _ _ _ => trivial) ?_ trivial
  intro row _ h
  have hrows : ∀ r ∈ row.children.map (Row.read source), Throughout _ r :=
    List.forall_mem_map.mpr h
  have hlambda : ∀ r ∈ row.children.map (Row.read source), Throughout _ r :=
    List.forall_mem_map.mpr fun c _ => single_lambda source c
  have hcall : ∀ o ∈ (row.read source).call, o.SingleOperands := by
    intro o ho
    rw [Row.read_call] at ho
    split at ho
    · exact (callReads_of_readCall? ho).singleOperands hrows hlambda
    · cases ho
  have houtline : (row.read source).outline.SingleOperands := by
    rw [Row.read_outline]
    exact (readRow_readsAs _ _ _ _ _).singleOperands hcall hrows
  refine ⟨houtline, ?_, hcall, ?_⟩
  · unfold expression single
    split
    · exact houtline
    · trivial
  · intro o ho
    obtain ⟨label, value, _, rfl⟩ := readArgument?_spec ho
    exact single_expression value

/-! ## Layouts -/

theorem mem_outlineOf {source : List Char} {root : Row} {o : Outline}
    (h : o ∈ outlineOf source root) : ∃ row ∈ root.children, (row.read source).outline = o := by
  obtain ⟨r, hr, ho⟩ := List.mem_map.mp h
  have hmem := mem_of_mem_namedOf hr
  rw [Row.readAll_eq] at hmem
  obtain ⟨row, hrow, rfl⟩ := List.mem_map.mp hmem
  exact ⟨row, hrow, ho⟩

theorem layout_lays (source : String) (root : Row) :
    ∃ ids b, Lays (outlineOf source.toList root) Arena.empty ids b ∧
      (layout source root).tree = b.finishWithRoot source root.kind := by
  refine ⟨_, _, lays_placeAll ?_ ⟨0, Text.byteLength source.toList⟩ Draft.empty, rfl⟩
  intro o ho
  obtain ⟨row, _, rfl⟩ := mem_outlineOf ho
  exact places (carries_singleOperands source.toList row).here.outline

theorem layout_rooted (source : String) (root : Row) : (layout source root).tree.Rooted := by
  obtain ⟨ids, b, hlays, htree⟩ := layout_lays source root
  rw [htree]
  exact Arena.rooted_finishWithRoot hlays.placed.grows source root.kind

def fileOutline (source : List Char) (root : Row) : Outline :=
  .wrapper root.kind ⟨0, Text.byteLength source⟩ (.group (outlineOf source root))

theorem everywhere_fileOutline {P : Outline → Prop} {source : List Char} {root : Row}
    (hfile : P (fileOutline source root)) (hgroup : P (.group (outlineOf source root)))
    (h : ∀ row ∈ root.children, (row.read source).outline.Everywhere P) :
    (fileOutline source root).Everywhere P := by
  refine .intro hfile (List.forall_mem_singleton.mpr (.intro hgroup ?_))
  intro o ho
  obtain ⟨row, hrow, rfl⟩ := mem_outlineOf ho
  exact h row hrow

/-- Every node of a file's tree stands for an item of the file. -/
theorem layout_standsFor {P : Outline → Prop} (source : String) (root : Row)
    (hp : (fileOutline source.toList root).Everywhere P) {i : Nat}
    (hi : i < (layout source root).tree.size) : StandsFor P (layout source root).tree.arena i := by
  obtain ⟨ids, b, hlays, htree⟩ := layout_lays source root
  have horphans := Arena.orphans_of_grows hlays.placed.grows
  have hgroup : Lays [.group (outlineOf source.toList root)] Arena.empty ids b := by
    rw [← List.append_nil ids]
    exact .bare rfl hlays .nil
  have hfile : Lays [fileOutline source.toList root] Arena.empty [b.size]
      (b.add (.other root.kind) ⟨0, Text.byteLength source.toList⟩ b.orphans) :=
    .node rfl rfl horphans hgroup .nil
  rw [htree] at hi ⊢
  rw [Arena.size_finishWithRoot] at hi
  refine (hfile.standsFor (List.forall_mem_singleton.mpr hp) (Nat.zero_le i) ?_).congr fun j _ => ?_
  · rwa [Arena.size_add]
  · have hnode := Arena.node_finish (b.add (.other root.kind) ⟨0, Text.byteLength source.toList⟩ b.orphans)
      source b.next j
    change (b.finishWithRoot source root.kind).arena.node j = _ at hnode
    rw [hnode]
    split
    · exact ⟨_, rfl⟩
    · exact ⟨_, rfl⟩

end CoroutineCheck.Kotlin

import CoroutineCheck.Proofs.Kotlin.Comments.Rows
/-!
# Expressions between comments

Navigations, sums, calls and lambdas are read as the same without comments, as long as no row that
they pick by position is one.
-/
namespace CoroutineCheck.Kotlin

open Reading Outline

section Readers

variable {source : List Char} {rows : List Row}

/-! ## Rows behind a sign -/

theorem rowsAfter?_read (source : List Char) {k : String} (hk : commentKinds.contains k = false)
    (rows : List Row) :
    ∃ rest : Option (List Row),
      rowsAfter? k (rows.map (Row.read source)) = rest.map (List.map (Row.read source)) ∧
      rowsAfter? k ((kept rows).map (Row.readBare source)) =
        rest.map (fun l => (kept l).map (Row.readBare source)) ∧
      ∀ l ∈ rest, ∀ r ∈ l, r ∈ rows := by
  induction rows with
  | nil => exact ⟨none, rfl, rfl, by simp⟩
  | cons r rows ih =>
    obtain ⟨rest, hread, hbare, hmem⟩ := ih
    by_cases hkind : r.kind = k
    · have hr := not_isComment (r := r) (hkind ▸ hk)
      refine ⟨some rows, ?_, ?_, ?_⟩
      · rw [List.map_cons, rowsAfter?, if_pos (by simpa using hkind)]
        rfl
      · rw [kept_cons_of_not hr, List.map_cons, rowsAfter?, if_pos (by simpa using hkind)]
        rfl
      · intro l hl x hx
        cases hl
        exact List.mem_cons_of_mem r hx
    · refine ⟨rest, ?_, ?_, fun l hl x hx => List.mem_cons_of_mem r (hmem l hl x hx)⟩
      · rw [List.map_cons, rowsAfter?, if_neg (by simpa using hkind), hread]
      · cases hr : r.isComment with
        | true => rw [kept_cons_of_isComment hr, hbare]
        | false =>
          rw [kept_cons_of_not hr, List.map_cons, rowsAfter?, if_neg (by simpa using hkind), hbare]

private theorem typeRow?_read (h : ∀ c ∈ typeRow? (rows.map (Row.read source)), c.isBlank = false) :
    ∃ t : Option Row, typeRow? (rows.map (Row.read source)) = t.map (Row.read source) ∧
      typeRow? ((kept rows).map (Row.readBare source)) = t.map (Row.readBare source) := by
  obtain ⟨rest, hread, hbare, _⟩ := rowsAfter?_read source (k := ":") (by decide) rows
  unfold typeRow? at h ⊢
  rw [hread] at h ⊢
  rw [hbare]
  cases rest with
  | none => exact ⟨none, rfl, rfl⟩
  | some l => exact ⟨l.find? Row.named, find?_read (by simp) (by simp) h⟩

theorem typeAfterColon?_kept (h : ∀ c ∈ typeRow? (rows.map (Row.read source)), c.isBlank = false) :
    typeAfterColon? source ((kept rows).map (Row.readBare source)) =
      typeAfterColon? source (rows.map (Row.read source)) := by
  have heq (rs : List Reading) : typeAfterColon? source rs =
      (typeRow? rs).map fun t => typeName (pieceOf source t.span) := by
    unfold typeAfterColon? typeRow?
    cases rowsAfter? ":" rs with
    | none => rfl
    | some rest => cases hfound : rest.find? named <;> simp [hfound]
  obtain ⟨t, hread, hbare⟩ := typeRow?_read h
  rw [heq, heq, hread, hbare, Option.map_map, Option.map_map]
  simp [Function.comp_def]

theorem readTyped?_kept (h : ∀ c ∈ typeRow? (rows.map (Row.read source)), c.isBlank = false) :
    readTyped? source ((kept rows).map (Row.readBare source)) =
      readTyped? source (rows.map (Row.read source)) := by
  obtain ⟨hread, hbare⟩ := find?_identifier_read source rows
  unfold readTyped?
  rw [hread, hbare, typeAfterColon?_kept h, Option.map_map, Option.map_map]
  simp [Function.comp_def]

/-! ## Navigation and sums -/

def selectorIn? (last : Reading) : Option Reading :=
  if last.kind == "navigation_suffix" then (namedOf last.children).find? isIdentifier
  else if last.isIdentifier then some last
  else none

private theorem navigationParts?_eq (rows : List Reading) : navigationParts? rows =
    (namedOf rows).head?.bind fun receiver =>
      (namedOf rows).tail.getLast?.bind fun last => (selectorIn? last).map (receiver, ·) := by
  unfold navigationParts? selectorIn?
  split
  case h_1 receiver second rest hrows =>
    rw [hrows]
    simp only [List.head?_cons, List.tail_cons, Option.bind_some, List.getLast?_eq_some_getLast
      (List.cons_ne_nil second rest)]
    split
    · rfl
    · split
      · rfl
      · rfl
  case h_2 hshort =>
    cases hrows : namedOf rows with
    | nil => rfl
    | cons receiver tail =>
      cases tail with
      | nil => rfl
      | cons second rest => exact absurd hrows (hshort receiver second rest)

private theorem selectorIn?_read (source : List Char) (r : Row) : ∃ w : Option Row,
    selectorIn? (r.read source) = w.map (Row.read source) ∧
      selectorIn? (r.readBare source) = w.map (Row.readBare source) := by
  obtain ⟨hread, hbare⟩ := find?_identifier_read source (r.children.filter Row.named)
  unfold selectorIn?
  simp only [Row.read_kind, readBare_kind, Row.read_children, readBare_children, namedOf_read,
    namedOf_readBare, isIdentifier]
  split
  · exact ⟨_, hread, hbare⟩
  · split
    · exact ⟨some r, rfl, rfl⟩
    · exact ⟨none, rfl, rfl⟩

private theorem navigationParts?_read
    (h : ∀ c ∈ picksOf "navigation_expression" (rows.map (Row.read source)), c.isBlank = false) :
    ∃ w : Option (Row × Row), (∀ p ∈ w, p.1 ∈ rows) ∧
      navigationParts? (rows.map (Row.read source)) =
        w.map (fun p => (p.1.read source, p.2.read source)) ∧
      navigationParts? ((kept rows).map (Row.readBare source)) =
        w.map (fun p => (p.1.readBare source, p.2.readBare source)) := by
  have hpicks : ∀ c ∈ (namedOf (rows.map (Row.read source))).head?.toList ++
      (namedOf (rows.map (Row.read source))).getLast?.toList, c.isBlank = false := h
  rw [namedOf_read] at hpicks
  have hmem : ∀ r ∈ rows.filter Row.named, r ∈ rows := fun r hr => (List.mem_filter.mp hr).1
  rw [navigationParts?_eq, navigationParts?_eq, namedOf_read, namedOf_readBare]
  generalize rows.filter Row.named = l at hpicks hmem
  cases l with
  | nil => exact ⟨none, by simp, rfl, rfl⟩
  | cons first tail =>
    have hfirst : first.isComment = false := by simpa using hpicks (first.read source) (by simp)
    have hlast : ∀ r, tail.getLast? = some r → r.isComment = false := by
      intro r hr
      have hr' : (first :: tail).getLast? = some r := by rw [List.getLast?_cons, hr]; rfl
      simpa using hpicks (r.read source) (by
        refine List.mem_append_right _ (Option.mem_toList.mpr ?_)
        rw [List.getLast?_map, hr']
        rfl)
    rw [kept_cons_of_not hfirst]
    simp only [List.map_cons, List.head?_cons, List.tail_cons, Option.bind_some, List.getLast?_map,
      getLast?_kept hlast]
    cases tail.getLast? with
    | none => exact ⟨none, by simp, rfl, rfl⟩
    | some last =>
      obtain ⟨w, hread, hbare⟩ := selectorIn?_read source last
      refine ⟨w.map (first, ·), ?_, ?_, ?_⟩
      · intro p hp
        obtain ⟨_, _, rfl⟩ := Option.map_eq_some_iff.mp hp
        exact hmem first (by simp)
      · simp [hread, Function.comp_def]
      · simp [hbare, Function.comp_def]

private theorem filter_isComment_read (source : List Char) (rows : List Row) :
    (namedOf (rows.map (Row.read source))).filter (!·.isComment) =
        ((rows.filter Row.named).filter fun r => !commentKinds.contains r.kind).map (Row.read source) ∧
      (namedOf ((kept rows).map (Row.readBare source))).filter (!·.isComment) =
        ((rows.filter Row.named).filter fun r => !commentKinds.contains r.kind).map
          (Row.readBare source) := by
  have hkept := filter_kept (p := fun r => !commentKinds.contains r.kind)
    (fun r hr => not_isComment (by simpa using hr)) (rows.filter Row.named)
  rw [namedOf_read, namedOf_readBare, List.filter_map, List.filter_map, ← hkept]
  simp only [Function.comp_def, Reading.isComment, Row.read_kind, readBare_kind, hkept, and_self]

def pairIn? {α : Type} : List α → Option (α × α)
  | [l, r] => some (l, r)
  | _ => none

private theorem pairIn?_map {α β : Type} (f : α → β) (l : List α) :
    pairIn? (l.map f) = (pairIn? l).map fun p => (f p.1, f p.2) := by
  rcases l with _ | ⟨_, _ | ⟨_, _ | _⟩⟩ <;> rfl

private theorem mem_of_pairIn? {α : Type} {l : List α} {p : α × α} (h : p ∈ pairIn? l) :
    p.1 ∈ l ∧ p.2 ∈ l := by
  unfold pairIn? at h
  split at h
  · cases h
    exact ⟨by simp, by simp⟩
  · cases h

private theorem operationSides?_eq (rows : List Reading) : operationSides? rows =
    ((rows.find? (·.side == some .left)).bind fun l =>
      (rows.find? (·.side == some .right)).map (l, ·)).or
      (pairIn? ((namedOf rows).filter (!·.isComment))) := by
  unfold operationSides?
  generalize (namedOf rows).filter (!·.isComment) = others
  cases rows.find? (·.side == some .left) with
  | none => rcases others with _ | ⟨_, _ | ⟨_, _ | _⟩⟩ <;> rfl
  | some l =>
    cases rows.find? (·.side == some .right) with
    | none => rcases others with _ | ⟨_, _ | ⟨_, _ | _⟩⟩ <;> rfl
    | some r => rfl

private theorem operationSides?_read
    (hleft : ∀ c ∈ (rows.map (Row.read source)).find? (·.side == some .left), c.isBlank = false)
    (hright : ∀ c ∈ (rows.map (Row.read source)).find? (·.side == some .right), c.isBlank = false) :
    ∃ w : Option (Row × Row), (∀ p ∈ w, p.1 ∈ rows ∧ p.2 ∈ rows) ∧
      operationSides? (rows.map (Row.read source)) =
        w.map (fun p => (p.1.read source, p.2.read source)) ∧
      operationSides? ((kept rows).map (Row.readBare source)) =
        w.map (fun p => (p.1.readBare source, p.2.readBare source)) := by
  obtain ⟨hl, hl'⟩ := find?_read (q := (·.side == some .left)) (by simp) (by simp) hleft
  obtain ⟨hr, hr'⟩ := find?_read (q := (·.side == some .right)) (by simp) (by simp) hright
  obtain ⟨hothers, hothers'⟩ := filter_isComment_read source rows
  have hpair : ∀ p ∈ pairIn? ((rows.filter Row.named).filter fun r => !commentKinds.contains r.kind),
      p.1 ∈ rows ∧ p.2 ∈ rows := by
    intro p hp
    obtain ⟨hfirst, hsecond⟩ := mem_of_pairIn? hp
    exact ⟨(List.mem_filter.mp (List.mem_filter.mp hfirst).1).1,
      (List.mem_filter.mp (List.mem_filter.mp hsecond).1).1⟩
  rw [operationSides?_eq, operationSides?_eq, hl, hl', hr, hr', hothers, hothers', pairIn?_map,
    pairIn?_map]
  cases hfl : rows.find? (·.side == some .left) with
  | none => exact ⟨_, hpair, rfl, rfl⟩
  | some x =>
    cases hfr : rows.find? (·.side == some .right) with
    | none => exact ⟨_, hpair, rfl, rfl⟩
    | some y =>
      refine ⟨some (x, y), ?_, rfl, rfl⟩
      rintro p ⟨⟩
      exact ⟨List.mem_of_find?_eq_some hfl, List.mem_of_find?_eq_some hfr⟩

theorem readNavigation?_kept (span : Span) (hready : Ready source rows)
    (h : ∀ c ∈ picksOf "navigation_expression" (rows.map (Row.read source)), c.isBlank = false) :
    (readNavigation? source span ((kept rows).map (Row.readBare source))).map trim =
      (readNavigation? source span (rows.map (Row.read source))).map trim := by
  obtain ⟨w, hmem, hread, hbare⟩ := navigationParts?_read h
  unfold readNavigation?
  rw [hread, hbare]
  cases w with
  | none => rfl
  | some p => simp [trim, (hready.agrees (hmem p rfl)).expression]

theorem readSum?_kept (span : Span) (hready : Ready source rows)
    (h : ∀ c ∈ picksOf "binary_expression" (rows.map (Row.read source)), c.isBlank = false) :
    (readSum? source span ((kept rows).map (Row.readBare source))).map trim =
      (readSum? source span (rows.map (Row.read source))).map trim := by
  have hpicks : ∀ c ∈ ((rows.map (Row.read source)).find? (!·.named)).toList ++
      ((rows.map (Row.read source)).find? (·.side == some .left)).toList ++
      ((rows.map (Row.read source)).find? (·.side == some .right)).toList, c.isBlank = false := h
  simp only [List.mem_append, Option.mem_toList] at hpicks
  obtain ⟨w, hmem, hsides, hsides'⟩ := operationSides?_read
    (fun c hc => hpicks c (.inl (.inr hc))) (fun c hc => hpicks c (.inr hc))
  obtain ⟨hread, hbare⟩ := find?_read (p := (!·.named)) (q := (!·.named))
    (fun r => by rw [r.read_named source]) (fun r => by rw [readBare_named source r])
    (fun c hc => hpicks c (.inl (.inl hc)))
  unfold readSum?
  rw [hread, hbare, hsides, hsides']
  cases rows.find? (!·.named) with
  | none => rfl
  | some sign =>
    simp only [Option.map_some, Option.bind_eq_bind, Option.bind_some, readBare_span, Row.read_span]
    split
    · cases w with
      | none => rfl
      | some p =>
        obtain ⟨hl, hr⟩ := hmem p rfl
        simp [trim, (hready.agrees hl).expression, (hready.agrees hr).expression]
    · rfl

/-! ## Calls -/

private theorem readArgument?_kept {r : Row} (hready : Ready source r.children)
    (h : ∀ c ∈ (namedOf (r.read source).children).getLast?, c.isBlank = false) :
    (readArgument? source (r.readBare source)).map trim =
      (readArgument? source (r.read source)).map trim := by
  have hlast : ∀ v, (r.children.filter Row.named).getLast? = some v → v.isComment = false := by
    intro v hv
    rw [Row.read_children, namedOf_read, List.getLast?_map, hv] at h
    simpa using h (v.read source) rfl
  have hsign : ((kept r.children).map (Row.readBare source)).any (·.kind == "=") =
      (r.children.map (Row.read source)).any (·.kind == "=") := by
    unfold kept
    rw [List.any_map, List.any_map, List.any_filter]
    congr 1
    funext c
    simp only [Function.comp_apply, readBare_kind, Row.read_kind]
    cases hc : c.isComment with
    | false => rfl
    | true =>
      rw [(by decide : ∀ k ∈ commentKinds, (k == "=") = false) c.kind (mem_commentKinds hc)]
      rfl
  obtain ⟨hread, hbare⟩ := find?_identifier_read source (r.children.filter Row.named)
  unfold readArgument?
  rw [readBare_children, Row.read_children, hsign, namedOf_read, namedOf_readBare, hread, hbare,
    List.getLast?_map, List.getLast?_map, getLast?_kept hlast, readBare_span, Row.read_span]
  cases hv : (r.children.filter Row.named).getLast? with
  | none => rfl
  | some v =>
    have hmem : v ∈ r.children := (List.mem_filter.mp (List.mem_of_getLast? hv)).1
    simp [trim, (hready.agrees hmem).expression, Function.comp_def]

private theorem readArguments_kept {r : Row} (hready : Ready source r.children) :
    (readArguments source (r.readBare source)).map trim =
      (readArguments source (r.read source)).map trim := by
  have hkept := filter_kept (p := (·.kind == "value_argument"))
    (fun c hc => not_isComment (by rw [beq_iff_eq.mp hc]; decide)) (r.children.filter Row.named)
  unfold readArguments
  rw [readBare_children, Row.read_children, namedOf_read, namedOf_readBare, List.filter_map,
    List.filter_map, List.filterMap_map, List.filterMap_map, List.map_filterMap, List.map_filterMap]
  simp only [Function.comp_def, readBare_kind, Row.read_kind, hkept]
  apply List.filterMap_congr
  intro a ha
  have hkind : a.kind = "value_argument" := by simpa using (List.mem_filter.mp ha).2
  have hmem : a ∈ r.children := (List.mem_filter.mp (List.mem_filter.mp ha).1).1
  refine readArgument?_kept (hready.children hmem) fun c hc => ?_
  refine hready.clean hmem c ?_
  rw [hkind]
  exact Option.mem_toList.mpr hc

def callRowParts (rows : List Row) : List Row :=
  (rows.filter Row.named).flatMap fun r =>
    if r.kind == "call_suffix" then r.children.filter Row.named
    else if commentKinds.contains r.kind then [] else [r]

private theorem callParts_read (source : List Char) (rows : List Row) :
    callParts (rows.map (Row.read source)) = (callRowParts rows).map (Row.read source) := by
  unfold callParts callRowParts
  rw [namedOf_read, List.flatMap_map, List.map_flatMap]
  apply List.flatMap_congr
  intro r _
  rw [Row.read_kind, Row.read_children, namedOf_read, Reading.isComment, Row.read_kind]
  split
  · rfl
  · split
    · rfl
    · rfl

private theorem callParts_readBare (source : List Char) (rows : List Row) :
    callParts ((kept rows).map (Row.readBare source)) =
      (kept (callRowParts rows)).map (Row.readBare source) := by
  unfold callParts callRowParts
  rw [namedOf_readBare, List.flatMap_map]
  induction rows.filter Row.named with
  | nil => rfl
  | cons r rest ih =>
    have happend (xs ys : List Row) : kept (xs ++ ys) = kept xs ++ kept ys := List.filter_append xs ys
    rw [List.flatMap_cons, happend, List.map_append, ← ih]
    cases hc : r.isComment with
    | true =>
      have hkind := (by decide : ∀ k ∈ commentKinds, (k == "call_suffix") = false) r.kind
        (mem_commentKinds hc)
      have hcomment : commentKinds.contains r.kind = true := (Bool.and_eq_true_iff.mp hc).1
      rw [kept_cons_of_isComment hc, hkind, hcomment]
      rfl
    | false =>
      rw [kept_cons_of_not hc, List.flatMap_cons, readBare_kind, readBare_children, namedOf_readBare,
        Reading.isComment, readBare_kind]
      congr 1
      split
      · rfl
      · split
        · rfl
        · rw [kept_cons_of_not hc]
          rfl

private theorem mem_callRowParts {part : Row} (h : part ∈ callRowParts rows) :
    part ∈ rows ∨ ∃ r ∈ rows, part ∈ r.children := by
  obtain ⟨r, hr, hpart⟩ := List.mem_flatMap.mp h
  have hmem := (List.mem_filter.mp hr).1
  split at hpart
  · exact .inr ⟨r, hmem, (List.mem_filter.mp hpart).1⟩
  · split at hpart
    · cases hpart
    · rw [List.mem_singleton.mp hpart]
      exact .inl hmem

def withTrailing (span : Span) (lambda : Option Outline) : Option Outline → Option Outline
  | some (.call _ receiver callee inner none) => some (.call span receiver callee inner lambda)
  | _ => none

private theorem withTrailing_trim (span : Span) (lambda c : Option Outline) :
    (withTrailing span lambda c).map trim = withTrailing span (lambda.map trim) (c.map trim) := by
  cases c with
  | none => rfl
  | some o =>
    cases o with
    | call s receiver callee inner trailing =>
      cases trailing with
      | none => simp [withTrailing, trim]
      | some l => simp [withTrailing, trim]
    | _ => rfl

private theorem readCall?_eq {span : Span} {rows rest : List Reading} {head : Reading}
    (h : callParts rows = head :: rest) : readCall? source span rows =
      if head.kind == "call_expression" && (rest.find? (·.kind == "value_arguments")).isNone &&
          (trailingIn rest).isSome then
        withTrailing span (trailingIn rest) head.call
      else readCallee? source span head (argumentsIn source rest) (trailingIn rest) := by
  unfold readCall?
  rw [h]
  rfl

private theorem trailingIn_kept (hready : Ready source rows) :
    (trailingIn ((kept rows).map (Row.readBare source))).map trim =
      (trailingIn (rows.map (Row.read source))).map trim := by
  have hkinds : ∀ k, lambdaKinds.contains k = true → commentKinds.contains k = false := fun k hk =>
    (by decide : ∀ k ∈ lambdaKinds, commentKinds.contains k = false) k (List.contains_iff_mem.mp hk)
  obtain ⟨hread, hbare⟩ := find?_kind_read source hkinds rows
  unfold trailingIn
  rw [hread, hbare]
  cases hf : rows.find? fun r => lambdaKinds.contains r.kind with
  | none => rfl
  | some l => simp [(hready.agrees (List.mem_of_find?_eq_some hf)).outline]

private theorem argumentsIn_kept (hready : Ready source rows) :
    (argumentsIn source ((kept rows).map (Row.readBare source))).map trim =
      (argumentsIn source (rows.map (Row.read source))).map trim := by
  obtain ⟨hread, hbare⟩ := find?_kind_read source (q := (· == "value_arguments"))
    (fun k hk => by rw [beq_iff_eq.mp hk]; decide) rows
  unfold argumentsIn
  rw [hread, hbare]
  cases hf : rows.find? fun r => r.kind == "value_arguments" with
  | none => rfl
  | some list => exact readArguments_kept (hready.children (List.mem_of_find?_eq_some hf))

private theorem readCallee?_kept (span : Span) {head : Row} {args args' : List Outline}
    {lambda lambda' : Option Outline} (hready : Ready source head.children) (hclean : head.Clean source)
    (hargs : args'.map trim = args.map trim) (hlambda : lambda'.map trim = lambda.map trim) :
    (readCallee? source span (head.readBare source) args' lambda').map trim =
      (readCallee? source span (head.read source) args lambda).map trim := by
  unfold readCallee? isIdentifier
  rw [readBare_kind, Row.read_kind, readBare_children, Row.read_children, word_readBare]
  split
  · simp [trim, hargs, hlambda]
  · split
    case isTrue hkind =>
      have hpicks : ∀ c ∈ picksOf "navigation_expression" (head.children.map (Row.read source)),
          c.isBlank = false := by
        rw [← beq_iff_eq.mp hkind, ← Row.read_children]
        exact hclean
      obtain ⟨w, hmem, hread, hbare⟩ := navigationParts?_read hpicks
      rw [hread, hbare]
      cases w with
      | none => rfl
      | some p => simp [trim, hargs, hlambda, (hready.agrees (hmem p rfl)).expression]
    · rfl

/-- A call has the same receiver, callee, arguments and lambda, if its head is no comment. -/
theorem readCall?_kept (span : Span) (hready : Ready source rows)
    (h : ∀ c ∈ (callParts (rows.map (Row.read source))).head?, c.isBlank = false) :
    (readCall? source span ((kept rows).map (Row.readBare source))).map trim =
      (readCall? source span (rows.map (Row.read source))).map trim := by
  have hparts : Ready source (callRowParts rows) := by
    intro part hpart
    rcases mem_callRowParts hpart with hpart | ⟨r, hr, hpart⟩
    · exact hready part hpart
    · exact hready.children hr part hpart
  rw [callParts_read] at h
  have hread := callParts_read source rows
  have hbare := callParts_readBare source rows
  generalize callRowParts rows = parts at hparts h hread hbare
  cases parts with
  | nil =>
    unfold readCall?
    rw [hread, hbare]
    rfl
  | cons head rest =>
    have hhead : head.isComment = false := by simpa using h (head.read source) rfl
    have hrest : Ready source rest := hparts.mono fun r hr => List.mem_cons_of_mem head hr
    have hmem : head ∈ head :: rest := List.mem_cons_self
    rw [kept_cons_of_not hhead] at hbare
    have htrailing := trailingIn_kept hrest
    obtain ⟨hargs, hargs'⟩ := find?_kind_read source (q := (· == "value_arguments"))
      (fun k hk => by rw [beq_iff_eq.mp hk]; decide) rest
    have hsome : (trailingIn ((kept rest).map (Row.readBare source))).isSome =
        (trailingIn (rest.map (Row.read source))).isSome := by
      simpa using congrArg Option.isSome htrailing
    rw [readCall?_eq hread, readCall?_eq hbare, hargs, hargs', hsome, readBare_kind, Row.read_kind,
      Option.isNone_map, Option.isNone_map]
    split
    · rw [withTrailing_trim, withTrailing_trim, htrailing, (hparts.agrees hmem).call]
    · exact readCallee?_kept span (hparts.children hmem) (hparts.clean hmem) (argumentsIn_kept hrest)
        htrailing

theorem readLambda_kept (kind : String) (span : Span) (hready : Ready source rows) :
    (readLambda kind span ((kept rows).map (Row.readBare source))).trim =
      (readLambda kind span (rows.map (Row.read source))).trim := by
  have hbody : (Outline.lambda span (outlines (namedOf ((kept rows).map (Row.readBare source))))).trim =
      (Outline.lambda span (outlines (namedOf (rows.map (Row.read source))))).trim := by
    rw [trim, trim, hready.trimAll_named]
  obtain ⟨found, hmem, hread, hbare⟩ := firstIn?_read source "lambda_literal" (by decide) rows
  unfold readLambda
  rw [hread, hbare]
  split
  case isTrue =>
    cases found with
    | none => exact hbody
    | some d =>
      obtain ⟨r, hr, hd⟩ := hmem d rfl
      exact (hready r hr d hd).1.outline
  case isFalse => exact hbody

end Readers

end CoroutineCheck.Kotlin

import CoroutineCheck.Kotlin.Reading
import CoroutineCheck.Proofs.Kotlin.Placement
/-!
# What rows are read as

Says once what the readers can return, so that later arguments go by cases: `ReadsAs` for a row,
`CallReads` for a call row. A property of readings that a row has when the rows below it have it
holds throughout a file; the first such property is that operands are single nodes.
-/
namespace CoroutineCheck.Kotlin

namespace Row

variable (source : List Char) (r : Row)

theorem readAll_eq (rows : List Row) : readAll source rows = rows.map (read source) := by
  induction rows with
  | nil => rfl
  | cons r rows ih => rw [readAll, ih, List.map_cons]

@[simp] theorem read_kind : (r.read source).kind = r.kind := by
  cases r
  rfl

@[simp] theorem read_named : (r.read source).named = r.named := by
  cases r
  rfl

@[simp] theorem read_span : (r.read source).span = r.span := by
  cases r
  rfl

@[simp] theorem read_side : (r.read source).side = r.side := by
  cases r
  rfl

@[simp] theorem read_children :
    (r.read source).children = r.children.map (read source) := by
  cases r
  exact readAll_eq source _

theorem read_call : (r.read source).call =
    if r.kind == "call_expression" then readCall? source r.span (r.children.map (read source))
    else none := by
  cases r
  rw [← readAll_eq]
  rfl

theorem read_outline : (r.read source).outline =
    readRow source r.kind r.span (r.read source).call (r.children.map (read source)) := by
  cases r
  rw [← readAll_eq]
  rfl

variable {source} {r}

theorem sizeOf_children_lt (r : Row) : sizeOf r.children < sizeOf r := by
  cases r with
  | mk kind named span side children =>
    rw [mk.sizeOf_spec]
    change sizeOf children < _
    omega

theorem sizeOf_lt_of_mem {c : Row} (hc : c ∈ r.children) : sizeOf c < sizeOf r := by
  exact Nat.lt_trans (List.sizeOf_lt_of_mem hc) r.sizeOf_children_lt

theorem children_induction {motive : Row → Prop}
    (h : ∀ r : Row, (∀ c ∈ r.children, motive c) → motive r) (r : Row) : motive r := by
  induction hk : sizeOf r using Nat.strongRecOn generalizing r with
  | ind k ih =>
    subst hk
    exact h r fun c hc => ih (sizeOf c) (sizeOf_lt_of_mem hc) c rfl

end Row

mutual

/-- A row and all rows below it, from left to right. -/
def Row.rows : Row → List Row
  | .mk kind named span side children => .mk kind named span side children :: rowsAll children

def rowsAll : List Row → List Row
  | [] => []
  | r :: rest => r.rows ++ rowsAll rest

end

theorem Row.rows_eq (r : Row) : r.rows = r :: r.children.flatMap rows := by
  have hall (rs : List Row) : rowsAll rs = rs.flatMap rows := by
    induction rs with
    | nil => rfl
    | cons r rs ih => rw [rowsAll, ih, List.flatMap_cons]
  cases r
  rw [rows, hall]
  rfl

namespace Reading

inductive Throughout (P : Reading → Prop) : Reading → Prop where
  | intro {r : Reading} : P r → (∀ c ∈ r.children, Throughout P c) → Throughout P r

namespace Throughout

variable {P : Reading → Prop} {r : Reading}

theorem here (h : Throughout P r) : P r := by
  cases h with
  | intro hp _ => exact hp

theorem inside (h : Throughout P r) : ∀ c ∈ r.children, Throughout P c := by
  cases h with
  | intro _ hc => exact hc

theorem imp {Q : Reading → Prop} (h : Throughout P r) (hpq : ∀ c, P c → Q c) : Throughout Q r := by
  induction h with
  | intro hp _ ih => exact .intro (hpq _ hp) ih

theorem and {Q : Reading → Prop} (h : Throughout P r) (h' : Throughout Q r) :
    Throughout (fun c => P c ∧ Q c) r := by
  induction h with
  | intro hp _ ih => exact .intro ⟨hp, h'.here⟩ fun c hc => ih c hc (h'.inside c hc)

/-- What a row is read as has a property throughout, if each row passes it on; `G` is what is known
of the rows. -/
theorem read {source : List Char} {G : Row → Prop} (hG : ∀ row, G row → ∀ c ∈ row.children, G c)
    (h : ∀ row, G row → (∀ c ∈ row.children, Throughout P (c.read source)) → P (row.read source))
    {row : Row} (hrow : G row) : Throughout P (row.read source) := by
  induction row using Row.children_induction with
  | h row ih =>
    have hall : ∀ c ∈ row.children, Throughout P (c.read source) :=
      fun c hc => ih c hc (hG row hrow c hc)
    refine .intro (h row hrow hall) ?_
    intro c hc
    rw [Row.read_children] at hc
    obtain ⟨child, hchild, rfl⟩ := List.mem_map.mp hc
    exact hall child hchild

end Throughout

theorem mem_of_mem_namedOf {rs : List Reading} {r : Reading} (h : r ∈ namedOf rs) : r ∈ rs :=
  (List.mem_filter.mp h).1

theorem firstIn?_spec {P : Reading → Prop} {kind : String} {rs : List Reading} {found : Reading}
    (h : ∀ r ∈ rs, Throughout P r) (hf : firstIn? kind rs = some found) :
    found.kind = kind ∧ Throughout P found := by
  induction hk : sizeOf rs using Nat.strongRecOn generalizing rs with
  | ind k ih =>
    subst hk
    cases rs with
    | nil => cases hf
    | cons r rest =>
      have hrest := ih (sizeOf rest) (by rw [List.cons.sizeOf_spec]; omega)
        (fun c hc => h c (List.mem_cons_of_mem r hc))
      rw [firstIn?] at hf
      split at hf
      · split at hf
        case isTrue hkind =>
          cases hf
          exact ⟨by simpa using hkind, h _ (by simp)⟩
        case isFalse =>
          cases hd : descendant? kind r with
          | none =>
            rw [hd] at hf
            exact hrest hf rfl
          | some x =>
            rw [hd] at hf
            cases hf
            have hr := h r (by simp)
            cases r with
            | mk k n s d c o cs =>
              rw [descendant?] at hd
              refine ih (sizeOf cs) ?_ hr.inside hd rfl
              simp only [List.cons.sizeOf_spec, mk.sizeOf_spec]
              omega
      · exact hrest hf rfl

end Reading

open Reading

def sumSides? (source : List Char) (rows : List Reading) : Option (Reading × Reading) :=
  (rows.find? (!·.named)).bind fun sign =>
    if Text.trim (pieceOf source sign.span) == ['+'] then operationSides? rows else none

def argumentValuesIn (rest : List Reading) : List Reading :=
  ((rest.find? (·.kind == "value_arguments")).map fun r =>
    ((namedOf r.children).filter (·.kind == "value_argument")).filterMap
      fun a => (namedOf a.children).getLast?).getD []

/-- The rows that a call is made of: its head, the values of its arguments, and its lambda. -/
def callRows (rows : List Reading) : List Reading :=
  match callParts rows with
  | [] => []
  | head :: rest =>
    head :: (argumentValuesIn rest ++ (rest.find? fun r => lambdaKinds.contains r.kind).toList)

/-- The rows whose outlines make up the outline of a row. All others below it are left out: names of
declarations, supertypes with their arguments, and whatever does not stand in its usual place. -/
def passedOn (source : List Char) (kind : String) (call : Option Outline) (rows : List Reading) :
    List Reading :=
  if identifierKinds.contains kind || typeKinds.contains kind || commentKinds.contains kind then []
  else match kind with
    | "package_header" | "import" | "import_header" => []
    | "call_expression" => if call.isSome then callRows rows else namedOf rows
    | "navigation_expression" =>
      ((navigationParts? rows).map fun p => [p.1, p.2]).getD (namedOf rows)
    | "binary_expression" | "additive_expression" =>
      ((sumSides? source rows).map fun p => [p.1, p.2]).getD (namedOf rows)
    | "parenthesized_expression" => (namedOf rows).head?.toList
    | "annotated_lambda" => ((firstIn? "lambda_literal" rows).map fun l => [l]).getD (namedOf rows)
    | "class_declaration" | "object_declaration" =>
      ((namedOf rows).eraseP isIdentifier).filter (!delegationKinds.contains ·.kind)
    | "function_declaration" => namedOf (rows.eraseP isIdentifier)
    | "property_declaration" =>
      rows.filter fun r => r.named && r.kind != "variable_declaration" && r.kind != "="
    | "parameter" | "class_parameter" => (namedOf rows).eraseP isIdentifier
    | _ => namedOf rows

/-- What a row can be read as, and the rows that it passes on. -/
inductive ReadsAs (source : List Char) (span : Span) (call : Option Outline) (rows : List Reading) :
    (kind : String) → Outline → (passed : List Reading) → Prop where
  | word {kind : String} : identifierKinds.contains kind = true →
      ReadsAs source span call rows kind (.word ⟨String.ofList (pieceOf source span), span⟩) []
  | nothing {kind : String} : ReadsAs source span call rows kind .nothing []
  | package {info : Option Package} :
      ReadsAs source span call rows "package_header" (.package info) []
  | imported {kind : String} {info : Import} :
      ReadsAs source span call rows kind (.imported info) []
  | group {kind : String} :
      ReadsAs source span call rows kind (.group (outlines (namedOf rows))) (namedOf rows)
  | call {o : Outline} : call = some o →
      ReadsAs source span call rows "call_expression" o (callRows rows)
  | navigation {receiver selector : Reading} : navigationParts? rows = some (receiver, selector) →
      ReadsAs source span call rows "navigation_expression"
        (.navigation span receiver.expression (selector.word source)) [receiver, selector]
  | sum {kind op : String} {l r : Reading} : operationSides? rows = some (l, r) →
      ReadsAs source span call rows kind (.binary span op l.expression r.expression) [l, r]
  | parenthesized {inner : Reading} : (namedOf rows).head? = some inner →
      ReadsAs source span call rows "parenthesized_expression"
        (.parenthesized span inner.expression) [inner]
  | lambda {kind : String} :
      ReadsAs source span call rows kind (.lambda span (outlines (namedOf rows))) (namedOf rows)
  | annotated {found : Reading} : firstIn? "lambda_literal" rows = some found →
      ReadsAs source span call rows "annotated_lambda" found.outline [found]
  | classDecl {kind : String} : ReadsAs source span call rows kind (readClass source kind span rows)
      (((namedOf rows).eraseP isIdentifier).filter (!delegationKinds.contains ·.kind))
  | function : ReadsAs source span call rows "function_declaration" (readFunction source span rows)
      (namedOf (rows.eraseP isIdentifier))
  | property : ReadsAs source span call rows "property_declaration" (readProperty source rows)
      (rows.filter fun r => r.named && r.kind != "variable_declaration" && r.kind != "=")
  | parameter {kind : String} : ReadsAs source span call rows kind (readParameter source rows)
      ((namedOf rows).eraseP isIdentifier)

theorem readSum?_eq (source : List Char) (span : Span) (rows : List Reading) :
    ∃ op, readSum? source span rows =
      (sumSides? source rows).map fun p => .binary span op p.1.expression p.2.expression := by
  unfold readSum? sumSides?
  cases rows.find? (!·.named) with
  | none => exact ⟨"", rfl⟩
  | some sign =>
    refine ⟨String.ofList (Text.trim (pieceOf source sign.span)), ?_⟩
    simp only [bind, Option.bind_some]
    split
    · cases operationSides? rows <;> rfl
    · rfl

private theorem operationSides?_of_sumSides? {source : List Char} {rows : List Reading}
    {sides : Reading × Reading} (h : sumSides? source rows = some sides) :
    operationSides? rows = some sides := by
  obtain ⟨sign, _, hsides⟩ := Option.bind_eq_some_iff.mp h
  split at hsides
  · exact hsides
  · cases hsides

theorem readRow_readsAs (source : List Char) (kind : String) (span : Span) (call : Option Outline)
    (rows : List Reading) :
    ReadsAs source span call rows kind (readRow source kind span call rows)
      (passedOn source kind call rows) := by
  unfold readRow passedOn
  by_cases hid : identifierKinds.contains kind = true
  · rw [if_pos hid, if_pos (by rw [hid]; rfl)]
    exact .word hid
  by_cases hnone : (typeKinds.contains kind || commentKinds.contains kind) = true
  · rw [if_neg hid, if_pos hnone, if_pos (by rw [Bool.or_assoc, hnone, Bool.or_true])]
    exact .nothing
  have hneither : ¬ (identifierKinds.contains kind || typeKinds.contains kind ||
      commentKinds.contains kind) = true := by
    rw [Bool.or_assoc, Bool.or_eq_true]
    exact not_or.mpr ⟨hid, hnone⟩
  rw [if_neg hid, if_neg hnone, if_neg hneither]
  split
  · exact .package
  case h_2 | h_3 =>
    split
    · exact .imported
    · exact .nothing
  · cases call with
    | none => exact .group
    | some o => exact .call rfl
  · unfold readNavigation?
    cases h : navigationParts? rows with
    | none => exact .group
    | some p => exact .navigation h
  case h_6 | h_7 =>
    obtain ⟨op, hsum⟩ := readSum?_eq source span rows
    rw [hsum]
    cases h : sumSides? source rows with
    | none => exact .group
    | some p => exact .sum (operationSides?_of_sumSides? h)
  · cases h : (namedOf rows).head? with
    | none => exact .nothing
    | some inner => exact .parenthesized h
  · exact .lambda
  · unfold readLambda
    cases h : firstIn? "lambda_literal" rows with
    | none => simpa [h] using ReadsAs.lambda
    | some found => simpa [h] using ReadsAs.annotated h
  case h_11 | h_12 => exact .classDecl
  · exact .function
  · exact .property
  case h_15 | h_16 => exact .parameter
  · -- No kind of the first match is left for the second.
    split <;> first | exact .group | contradiction

theorem readRow_identifier {source : List Char} {kind : String} {span : Span}
    {call : Option Outline} {rows : List Reading} (hk : identifierKinds.contains kind = true) :
    readRow source kind span call rows = .word ⟨String.ofList (pieceOf source span), span⟩ := by
  unfold readRow
  exact if_pos hk

theorem readRow_lambda {source : List Char} {kind : String} {span : Span} {call : Option Outline}
    {rows : List Reading} (hk : lambdaKinds.contains kind = true) :
    readRow source kind span call rows = readLambda kind span rows := by
  simp only [lambdaKinds, List.contains_iff_mem, List.mem_cons, List.not_mem_nil, or_false] at hk
  rcases hk with rfl | rfl <;> rfl

/-- Receiver and selector come from two named rows in order, the selector possibly from inside the
second, which is then a suffix. -/
theorem navigationParts?_spec {rows : List Reading} {receiver selector : Reading}
    (h : navigationParts? rows = some (receiver, selector)) :
    ∃ last, [receiver, last].Sublist rows ∧ selector.isIdentifier = true ∧
      (selector = last ∨ last.kind = "navigation_suffix" ∧ selector ∈ last.children) := by
  unfold navigationParts? at h
  split at h
  case h_1 first second rest hrows =>
    have hsub : (first :: second :: rest).Sublist rows := hrows ▸ List.filter_sublist
    have hlast : [(second :: rest).getLast (by simp)].Sublist (second :: rest) :=
      List.singleton_sublist.mpr (List.getLast_mem _)
    simp only at h
    split at h
    case isTrue hkind =>
      obtain ⟨found, hfound, heq⟩ := Option.map_eq_some_iff.mp h
      cases heq
      exact ⟨_, (hlast.cons_cons _).trans hsub, List.find?_some hfound,
        .inr ⟨by simpa using hkind, mem_of_mem_namedOf (List.mem_of_find?_eq_some hfound)⟩⟩
    · split at h
      case isTrue hid =>
        cases h
        exact ⟨_, (hlast.cons_cons _).trans hsub, hid, .inl rfl⟩
      · cases h
  · cases h

theorem mem_callParts {rows : List Reading} {part : Reading} (h : part ∈ callParts rows) :
    part ∈ rows ∨ ∃ r ∈ rows, r.kind = "call_suffix" ∧ part ∈ r.children := by
  obtain ⟨r, hr, hpart⟩ := List.mem_flatMap.mp h
  have hr' := mem_of_mem_namedOf hr
  split at hpart
  case isTrue hkind => exact .inr ⟨r, hr', by simpa using hkind, mem_of_mem_namedOf hpart⟩
  · split at hpart
    · simp at hpart
    · rw [List.mem_singleton.mp hpart]
      exact .inl hr'

def argumentsIn (source : List Char) (rest : List Reading) : List Outline :=
  ((rest.find? (·.kind == "value_arguments")).map (readArguments source)).getD []

def trailingIn (rest : List Reading) : Option Outline :=
  (rest.find? fun r => lambdaKinds.contains r.kind).map outline

inductive CallReads (source : List Char) (span : Span) (rows : List Reading) : Outline → Prop where
  | merged {head : Reading} {rest : List Reading} {s : Span} {receiver : Option Outline}
      {callee : Word} {inner : List Outline} {body : Outline} :
      callParts rows = head :: rest → head.kind = "call_expression" →
      rest.find? (·.kind == "value_arguments") = none →
      head.call = some (.call s receiver callee inner none) → trailingIn rest = some body →
      CallReads source span rows (.call span receiver callee inner (some body))
  | plain {head : Reading} {rest : List Reading} :
      callParts rows = head :: rest → head.isIdentifier = true →
      CallReads source span rows
        (.call span none (head.word source) (argumentsIn source rest) (trailingIn rest))
  | qualified {head : Reading} {rest : List Reading} {receiver selector : Reading} :
      callParts rows = head :: rest → head.kind = "navigation_expression" →
      navigationParts? head.children = some (receiver, selector) →
      CallReads source span rows (.call span (some receiver.expression) (selector.word source)
        (argumentsIn source rest) (trailingIn rest))

theorem callReads_of_readCall? {source : List Char} {span : Span} {rows : List Reading} {o : Outline}
    (h : readCall? source span rows = some o) : CallReads source span rows o := by
  unfold readCall? at h
  split at h
  · cases h
  case h_2 head rest hparts =>
    simp only at h
    split at h
    case isTrue hmerge =>
      simp only [Bool.and_eq_true, Option.isNone_iff_eq_none, beq_iff_eq,
        Option.isSome_iff_exists] at hmerge
      obtain ⟨⟨hkind, hargs⟩, body, hbody⟩ := hmerge
      split at h
      case h_1 s receiver callee inner hcall =>
        cases h
        rw [show ((rest.find? fun r => lambdaKinds.contains r.kind).map outline) = some body from hbody]
        exact .merged hparts hkind hargs hcall hbody
      · cases h
    case isFalse =>
      unfold readCallee? at h
      split at h
      case isTrue hid =>
        cases h
        exact .plain hparts hid
      case isFalse =>
        split at h
        case isTrue hkind =>
          obtain ⟨⟨receiver, selector⟩, hnav, heq⟩ := Option.map_eq_some_iff.mp h
          cases heq
          exact .qualified hparts (by simpa using hkind) hnav
        · cases h

/-! ## Where parts come from -/

section Parts

variable {P : Reading → Prop} {source : List Char} {rows : List Reading}

theorem throughout_navigation (h : ∀ r ∈ rows, Throughout P r) {receiver selector : Reading}
    (hn : navigationParts? rows = some (receiver, selector)) :
    Throughout P receiver ∧ Throughout P selector := by
  obtain ⟨last, hsub, _, hsel⟩ := navigationParts?_spec hn
  have hreceiver := h receiver (hsub.subset (by simp))
  have hlast := h last (hsub.subset (by simp))
  rcases hsel with rfl | ⟨_, hsel⟩
  · exact ⟨hreceiver, hlast⟩
  · exact ⟨hreceiver, hlast.inside selector hsel⟩

theorem throughout_callPart (h : ∀ r ∈ rows, Throughout P r) {part : Reading}
    (hp : part ∈ callParts rows) : Throughout P part := by
  rcases mem_callParts hp with hp | ⟨r, hr, _, hp⟩
  · exact h part hp
  · exact (h r hr).inside part hp

theorem mem_argumentsIn {o : Outline} (h : o ∈ argumentsIn source rows) :
    ∃ r ∈ rows, ∃ c ∈ r.children, readArgument? source c = some o := by
  unfold argumentsIn at h
  cases hf : rows.find? (·.kind == "value_arguments") with
  | none => simp [hf] at h
  | some r =>
    rw [hf] at h
    obtain ⟨c, hc, ho⟩ := List.mem_filterMap.mp h
    exact ⟨r, List.mem_of_find?_eq_some hf, c, mem_of_mem_namedOf (List.mem_filter.mp hc).1, ho⟩

theorem mem_trailingIn {o : Outline} (h : o ∈ trailingIn rows) :
    ∃ r ∈ rows, lambdaKinds.contains r.kind = true ∧ r.outline = o := by
  obtain ⟨r, hr, ho⟩ := Option.map_eq_some_iff.mp h
  have hk : lambdaKinds.contains r.kind = true := by simpa using List.find?_some hr
  exact ⟨r, List.mem_of_find?_eq_some hr, hk, ho⟩

theorem readArgument?_spec {r : Reading} {o : Outline} (h : readArgument? source r = some o) :
    ∃ label, ∃ value ∈ r.children, o = .argument r.span label value.expression := by
  obtain ⟨value, hv, ho⟩ := Option.map_eq_some_iff.mp h
  exact ⟨_, value, mem_of_mem_namedOf (List.mem_of_getLast? hv), ho.symm⟩

theorem mem_of_operationSides? {l r : Reading} (h : operationSides? rows = some (l, r)) :
    l ∈ rows ∧ r ∈ rows := by
  unfold operationSides? at h
  split at h
  case h_1 hl hr =>
    cases h
    exact ⟨List.mem_of_find?_eq_some hl, List.mem_of_find?_eq_some hr⟩
  · split at h
    case h_1 first second hrows =>
      cases h
      have hmem : ∀ x ∈ [l, r], x ∈ rows := fun x hx =>
        mem_of_mem_namedOf (List.mem_filter.mp (hrows ▸ hx)).1
      exact ⟨hmem l (by simp), hmem r (by simp)⟩
    · cases h

structure PropertyParts.All (Q : Outline → Prop) (p : PropertyParts) : Prop where
  before : ∀ o ∈ p.before, Q o
  initializer : ∀ o ∈ p.initializer, Q o
  after : ∀ o ∈ p.after, Q o

theorem all_propertyParts {Q : Outline → Prop} (h : ∀ r ∈ rows, Q r.outline ∧ Q r.expression)
    (sawSign : Bool) {p : PropertyParts} (hp : p.All Q) :
    (propertyParts source sawSign p rows).All Q := by
  induction rows generalizing sawSign p with
  | nil => exact hp
  | cons r rest ih =>
    obtain ⟨hr, hrest⟩ := List.forall_mem_cons.mp h
    have hsnoc {os : List Outline} (hos : ∀ o ∈ os, Q o) : ∀ o ∈ os ++ [r.outline], Q o :=
      List.forall_mem_append.mpr ⟨hos, List.forall_mem_singleton.mpr hr.1⟩
    unfold propertyParts
    split
    · exact ih hrest sawSign ⟨hp.before, hp.initializer, hp.after⟩
    · split
      · exact ih hrest true hp
      · split
        · exact ih hrest sawSign hp
        · split
          · exact ih hrest sawSign ⟨hp.before, fun o ho => Option.some.inj ho ▸ hr.2, hp.after⟩
          · split
            · exact ih hrest sawSign ⟨hsnoc hp.before, hp.initializer, hp.after⟩
            · exact ih hrest sawSign ⟨hp.before, hp.initializer, hsnoc hp.after⟩

end Parts

end CoroutineCheck.Kotlin

import CoroutineCheck.Proofs.Kotlin.Readings
import CoroutineCheck.Proofs.Kotlin.Trim
import Mathlib.Data.List.Basic
/-!
# Rows without comments

Comments that have no rows below them are dropped from a tree of rows, and what is left is read again.
A search for a row finds the same one, unless it finds a comment. Which rows are picked by position,
and so may be comments, is listed by kind.
-/
namespace CoroutineCheck.Kotlin

open Reading Outline

/-- A comment with no rows below it. -/
def Row.isComment (r : Row) : Bool := commentKinds.contains r.kind && r.children.isEmpty

mutual

def Row.withoutComments : Row → Row
  | .mk kind named span side children => .mk kind named span side (dropComments children)

def dropComments : List Row → List Row
  | [] => []
  | r :: rest =>
    if r.isComment then dropComments rest else r.withoutComments :: dropComments rest

end

def kept (rows : List Row) : List Row := rows.filter fun r => !r.isComment

private theorem dropComments_eq (rows : List Row) :
    dropComments rows = (kept rows).map Row.withoutComments := by
  induction rows with
  | nil => rfl
  | cons r rows ih =>
    rw [dropComments, ih, kept, kept, List.filter_cons]
    cases r.isComment with
    | true => rfl
    | false => rfl

/-! ## Rows picked by position -/

def typeRow? (rows : List Reading) : Option Reading :=
  (rowsAfter? ":" rows).bind fun rest => rest.find? named

def valueRow? (rows : List Reading) : Option Reading :=
  (rowsAfter? "=" rows).bind fun rest =>
    rest.find? fun r => r.named && r.kind != "variable_declaration" && r.kind != "="

/-- Among the rows below a row of some kind, those that are picked by where they stand. -/
def picksOf (kind : String) (rows : List Reading) : List Reading :=
  match kind with
  | "value_argument" => (namedOf rows).getLast?.toList
  | "parenthesized_expression" => (namedOf rows).head?.toList
  | "navigation_expression" => (namedOf rows).head?.toList ++ (namedOf rows).getLast?.toList
  | "call_expression" => (callParts rows).head?.toList
  | "binary_expression" | "additive_expression" =>
    (rows.find? (!·.named)).toList ++ (rows.find? (·.side == some .left)).toList ++
      (rows.find? (·.side == some .right)).toList
  | "property_declaration" => (valueRow? rows).toList
  | "function_declaration" => ((rowsAfter? "function_value_parameters" rows).bind typeRow?).toList
  | "parameter" | "class_parameter" | "variable_declaration" => (typeRow? rows).toList
  | _ => []

def Reading.isBlank (r : Reading) : Bool := commentKinds.contains r.kind && r.children.isEmpty

/-- No row that is picked by its position is a comment. -/
def Row.Clean (source : List Char) (r : Row) : Prop :=
  ∀ c ∈ picksOf r.kind (r.read source).children, c.isBlank = false

instance (source : List Char) (r : Row) : Decidable (r.Clean source) :=
  inferInstanceAs (Decidable (∀ c ∈ picksOf r.kind (r.read source).children, c.isBlank = false))

/-! ## Readings with and without comments -/

def Row.readBare (source : List Char) (r : Row) : Reading := r.withoutComments.read source

section Bare

variable (source : List Char) (r : Row)

@[simp] theorem Row.withoutComments_kind : r.withoutComments.kind = r.kind := by
  cases r
  rfl

@[simp] theorem Row.withoutComments_named : r.withoutComments.named = r.named := by
  cases r
  rfl

@[simp] private theorem Row.withoutComments_span : r.withoutComments.span = r.span := by
  cases r
  rfl

@[simp] theorem Row.withoutComments_side : r.withoutComments.side = r.side := by
  cases r
  rfl

private theorem Row.withoutComments_children :
    r.withoutComments.children = (kept r.children).map Row.withoutComments := by
  cases r with
  | mk kind named span side children => exact dropComments_eq children

theorem read_withoutComments_children : r.withoutComments.children.map (Row.read source) =
    (kept r.children).map (Row.readBare source) := by
  rw [Row.withoutComments_children, List.map_map]
  rfl

@[simp] theorem readBare_kind : (r.readBare source).kind = r.kind := by simp [Row.readBare]

@[simp] theorem readBare_named : (r.readBare source).named = r.named := by simp [Row.readBare]

@[simp] theorem readBare_span : (r.readBare source).span = r.span := by simp [Row.readBare]

@[simp] theorem readBare_side : (r.readBare source).side = r.side := by simp [Row.readBare]

@[simp] theorem readBare_children :
    (r.readBare source).children = (kept r.children).map (Row.readBare source) := by
  rw [Row.readBare, Row.read_children, read_withoutComments_children]

theorem readBare_outline : (r.readBare source).outline =
    readRow source r.kind r.span (r.readBare source).call
      ((kept r.children).map (Row.readBare source)) := by
  rw [Row.readBare, Row.read_outline, read_withoutComments_children, Row.withoutComments_kind,
    Row.withoutComments_span]

theorem readBare_call : (r.readBare source).call =
    if r.kind == "call_expression" then
      readCall? source r.span ((kept r.children).map (Row.readBare source))
    else none := by
  rw [Row.readBare, Row.read_call, read_withoutComments_children, Row.withoutComments_kind,
    Row.withoutComments_span]

end Bare

/-- A row that is read as the same with and without comments, up to items that come to nothing. -/
structure Row.Agrees (source : List Char) (r : Row) : Prop where
  outline : (r.readBare source).outline.trim = (r.read source).outline.trim
  call : (r.readBare source).call.map trim = (r.read source).call.map trim

/-- All rows at or below some rows are read as the same, and pick no comments. -/
def Ready (source : List Char) (rows : List Row) : Prop :=
  ∀ r ∈ rows, ∀ d ∈ r.rows, d.Agrees source ∧ d.Clean source

section Ready

variable {source : List Char} {rows : List Row} {r : Row}

theorem Row.mem_rows_self (r : Row) : r ∈ r.rows := by
  rw [Row.rows_eq]
  exact List.mem_cons_self

theorem Row.mem_rows_of_child {c d : Row} (hc : c ∈ r.children) (hd : d ∈ c.rows) : d ∈ r.rows := by
  rw [Row.rows_eq]
  exact List.mem_cons_of_mem r (List.mem_flatMap.mpr ⟨c, hc, hd⟩)

theorem Ready.agrees (h : Ready source rows) (hr : r ∈ rows) : r.Agrees source :=
  (h r hr r r.mem_rows_self).1

theorem Ready.clean (h : Ready source rows) (hr : r ∈ rows) : r.Clean source :=
  (h r hr r r.mem_rows_self).2

theorem Ready.children (h : Ready source rows) (hr : r ∈ rows) : Ready source r.children :=
  fun _ hc d hd => h r hr d (Row.mem_rows_of_child hc hd)

theorem Ready.mono {rows' : List Row} (h : Ready source rows) (hs : ∀ r ∈ rows', r ∈ rows) :
    Ready source rows' := fun r hr => h r (hs r hr)

theorem Row.Agrees.expression (h : r.Agrees source) :
    (r.readBare source).expression.trim = (r.read source).expression.trim := by
  unfold Reading.expression
  rw [trim_single, trim_single, h.outline, readBare_kind, readBare_span, Row.read_kind, Row.read_span]

theorem mem_commentKinds (h : r.isComment = true) : r.kind ∈ commentKinds :=
  List.contains_iff_mem.mp (Bool.and_eq_true_iff.mp h).1

theorem outline_of_isComment (h : r.isComment = true) : (r.read source).outline = .nothing := by
  have hkind : commentKinds.contains r.kind = true := (Bool.and_eq_true_iff.mp h).1
  have hid : identifierKinds.contains r.kind = false :=
    (by decide : ∀ k ∈ commentKinds, identifierKinds.contains k = false) r.kind (mem_commentKinds h)
  rw [Row.read_outline]
  unfold readRow
  rw [if_neg (by rw [hid]; exact Bool.false_ne_true), if_pos (by rw [hkind, Bool.or_true])]

end Ready

/-! ## Lists without comments -/

section Lists

variable {source : List Char} {rows : List Row}

theorem kept_filter (p : Row → Bool) (rows : List Row) : kept (rows.filter p) = (kept rows).filter p :=
  List.filter_comm _ _ _

theorem kept_cons_of_not {r : Row} (h : r.isComment = false) (rows : List Row) :
    kept (r :: rows) = r :: kept rows :=
  List.filter_cons_of_pos (by rw [h]; rfl)

theorem kept_cons_of_isComment {r : Row} (h : r.isComment = true) (rows : List Row) :
    kept (r :: rows) = kept rows :=
  List.filter_cons_of_neg (by rw [h]; exact Bool.false_ne_true)

theorem filter_kept {p : Row → Bool} (h : ∀ r, p r = true → r.isComment = false) (rows : List Row) :
    (kept rows).filter p = rows.filter p := by
  unfold kept
  rw [List.filter_filter]
  apply List.filter_congr
  intro r _
  cases hp : p r with
  | false => rfl
  | true => rw [h r hp]; rfl

private theorem find?_kept {p : Row → Bool} (h : ∀ r, rows.find? p = some r → r.isComment = false) :
    (kept rows).find? p = rows.find? p := by
  induction rows with
  | nil => rfl
  | cons r rows ih =>
    cases hr : r.isComment with
    | true =>
      have hp : p r = false := by
        cases hp : p r with
        | false => rfl
        | true => rw [h r (by rw [List.find?_cons_of_pos hp])] at hr; cases hr
      rw [List.find?_cons_of_neg (by rw [hp]; exact Bool.false_ne_true)] at h ⊢
      rw [kept_cons_of_isComment hr, ih h]
    | false =>
      rw [kept_cons_of_not hr]
      cases hp : p r with
      | true => rw [List.find?_cons_of_pos hp, List.find?_cons_of_pos hp]
      | false =>
        have hneg : ¬ p r = true := by rw [hp]; exact Bool.false_ne_true
        rw [List.find?_cons_of_neg hneg] at h ⊢
        rw [List.find?_cons_of_neg hneg, ih h]

private theorem head?_kept (h : ∀ r, rows.head? = some r → r.isComment = false) :
    (kept rows).head? = rows.head? := by
  cases rows with
  | nil => rfl
  | cons r rows => rw [kept_cons_of_not (h r rfl)]; rfl

theorem getLast?_kept (h : ∀ r, rows.getLast? = some r → r.isComment = false) :
    (kept rows).getLast? = rows.getLast? := by
  rcases List.eq_nil_or_concat rows with rfl | ⟨front, last, rfl⟩
  · rfl
  · have hlast := h last (by simp)
    unfold kept
    rw [List.concat_eq_append, List.filter_append, List.filter_cons_of_pos (by rw [hlast]; rfl)]
    simp

theorem kept_eraseP {p : Row → Bool} (h : ∀ r, p r = true → r.isComment = false) (rows : List Row) :
    kept (rows.eraseP p) = (kept rows).eraseP p := by
  induction rows with
  | nil => rfl
  | cons r rows ih =>
    cases hp : p r with
    | true => rw [List.eraseP_cons_of_pos hp, kept_cons_of_not (h r hp), List.eraseP_cons_of_pos hp]
    | false =>
      have hneg : ¬ p r = true := by rw [hp]; exact Bool.false_ne_true
      rw [List.eraseP_cons_of_neg hneg]
      cases hr : r.isComment with
      | true => rw [kept_cons_of_isComment hr, kept_cons_of_isComment hr, ih]
      | false => rw [kept_cons_of_not hr, kept_cons_of_not hr, List.eraseP_cons_of_neg hneg, ih]

/-- Outlines of rows that agree are the same without comments, up to items that come to nothing. -/
theorem trimAll_outlines_kept (h : ∀ r ∈ rows, r.Agrees source) :
    trimAll (outlines ((kept rows).map (Row.readBare source))) =
      trimAll (outlines (rows.map (Row.read source))) := by
  induction rows with
  | nil => rfl
  | cons r rows ih =>
    obtain ⟨hr, hrows⟩ := List.forall_mem_cons.mp h
    have hcons (x : Reading) (xs : List Reading) : trimAll (outlines (x :: xs)) =
        if x.outline.trim.isNothing then trimAll (outlines xs)
        else x.outline.trim :: trimAll (outlines xs) := rfl
    rw [List.map_cons, hcons, ← ih hrows]
    cases hc : r.isComment with
    | true =>
      rw [kept_cons_of_isComment hc, outline_of_isComment hc]
      rfl
    | false => rw [kept_cons_of_not hc, List.map_cons, hcons, hr.outline]

end Lists

/-! ## Searches without comments -/

section Searches

variable {source : List Char} {rows : List Row}

@[simp] theorem isBlank_read (r : Row) : (r.read source).isBlank = r.isComment := by
  simp [isBlank, Row.isComment]

@[simp] theorem word_readBare (r : Row) :
    (r.readBare source).word source = (r.read source).word source := by
  simp [Reading.word]

theorem not_isComment {r : Row} (h : commentKinds.contains r.kind = false) : r.isComment = false := by
  rw [Row.isComment, h]
  rfl

theorem namedOf_read (rows : List Row) :
    namedOf (rows.map (Row.read source)) = (rows.filter Row.named).map (Row.read source) := by
  have hnamed : named ∘ Row.read source = Row.named := funext fun r => r.read_named source
  rw [namedOf, List.filter_map, hnamed]

theorem namedOf_readBare (rows : List Row) : namedOf ((kept rows).map (Row.readBare source)) =
    (kept (rows.filter Row.named)).map (Row.readBare source) := by
  have hnamed : named ∘ Row.readBare source = Row.named := funext (readBare_named source)
  rw [namedOf, List.filter_map, hnamed, kept_filter]

theorem Ready.trimAll_named (h : Ready source rows) :
    trimAll (outlines (namedOf ((kept rows).map (Row.readBare source)))) =
      trimAll (outlines (namedOf (rows.map (Row.read source)))) := by
  rw [namedOf_read, namedOf_readBare]
  exact trimAll_outlines_kept fun r hr => h.agrees (List.mem_filter.mp hr).1

theorem find?_read {p : Reading → Bool} {q : Row → Bool} (hread : ∀ r, p (Row.read source r) = q r)
    (hbare : ∀ r, p (Row.readBare source r) = q r)
    (h : ∀ c ∈ (rows.map (Row.read source)).find? p, c.isBlank = false) :
    (rows.map (Row.read source)).find? p = (rows.find? q).map (Row.read source) ∧
      ((kept rows).map (Row.readBare source)).find? p = (rows.find? q).map (Row.readBare source) := by
  have hp : p ∘ Row.read source = q := funext hread
  have hb : p ∘ Row.readBare source = q := funext hbare
  rw [List.find?_map, hp] at h ⊢
  have hfound : ∀ r, rows.find? q = some r → r.isComment = false := by
    intro r hr
    rw [hr] at h
    simpa using h (r.read source) rfl
  rw [List.find?_map, hb, find?_kept hfound]
  exact ⟨rfl, rfl⟩

theorem find?_kind_read (source : List Char) {q : String → Bool}
    (hq : ∀ k, q k = true → commentKinds.contains k = false) (rows : List Row) :
    (rows.map (Row.read source)).find? (fun r => q r.kind) =
        (rows.find? fun r => q r.kind).map (Row.read source) ∧
      ((kept rows).map (Row.readBare source)).find? (fun r => q r.kind) =
        (rows.find? fun r => q r.kind).map (Row.readBare source) := by
  refine find?_read (by simp) (by simp) fun c hc => ?_
  have hfound : q c.kind = true := List.find?_some (p := fun r : Reading => q r.kind) hc
  rw [isBlank, hq c.kind hfound]
  rfl

theorem head?_named_read (h : ∀ c ∈ (namedOf (rows.map (Row.read source))).head?, c.isBlank = false) :
    ∃ first : Option Row, (∀ r ∈ first, r ∈ rows) ∧
      (namedOf (rows.map (Row.read source))).head? = first.map (Row.read source) ∧
      (namedOf ((kept rows).map (Row.readBare source))).head? = first.map (Row.readBare source) := by
  rw [namedOf_read, List.head?_map] at h
  have hfirst : ∀ r, (rows.filter Row.named).head? = some r → r.isComment = false := by
    intro r hr
    rw [hr] at h
    simpa using h (r.read source) rfl
  rw [namedOf_read, namedOf_readBare, List.head?_map, List.head?_map, head?_kept hfirst]
  exact ⟨_, fun r hr => (List.mem_filter.mp (List.mem_of_head? hr)).1, rfl, rfl⟩

theorem not_comment_of_identifierKind (k : String) (hk : identifierKinds.contains k = true) :
    commentKinds.contains k = false :=
  (by decide : ∀ k ∈ identifierKinds, commentKinds.contains k = false) k (List.contains_iff_mem.mp hk)

theorem find?_identifier_read (source : List Char) (rows : List Row) :
    (rows.map (Row.read source)).find? isIdentifier =
        (rows.find? fun r => identifierKinds.contains r.kind).map (Row.read source) ∧
      ((kept rows).map (Row.readBare source)).find? isIdentifier =
        (rows.find? fun r => identifierKinds.contains r.kind).map (Row.readBare source) :=
  find?_kind_read source not_comment_of_identifierKind rows

theorem descendant?_eq (kind : String) (r : Reading) :
    descendant? kind r = firstIn? kind r.children := by
  cases r
  rw [descendant?]
  rfl

theorem firstIn?_read (source : List Char) (kind : String) (hk : commentKinds.contains kind = false)
    (rows : List Row) : ∃ found : Option Row, (∀ d ∈ found, ∃ r ∈ rows, d ∈ r.rows) ∧
      firstIn? kind (rows.map (Row.read source)) = found.map (Row.read source) ∧
      firstIn? kind ((kept rows).map (Row.readBare source)) = found.map (Row.readBare source) := by
  induction hn : sizeOf rows using Nat.strongRecOn generalizing rows with
  | ind n ih =>
    subst hn
    cases rows with
    | nil => exact ⟨none, by simp, rfl, rfl⟩
    | cons r rest =>
      obtain ⟨later, hlater, hread, hbare⟩ :=
        ih (sizeOf rest) (by rw [List.cons.sizeOf_spec]; omega) rest rfl
      obtain ⟨below, hbelow, hread', hbare'⟩ := ih (sizeOf r.children) (by
        have := r.sizeOf_children_lt
        rw [List.cons.sizeOf_spec]
        omega) r.children rfl
      have hrest : ∀ d ∈ later, ∃ x ∈ r :: rest, d ∈ x.rows := by
        intro d hd
        obtain ⟨x, hx, hdx⟩ := hlater d hd
        exact ⟨x, List.mem_cons_of_mem r hx, hdx⟩
      rw [List.map_cons, firstIn?, Row.read_named, Row.read_kind, descendant?_eq, Row.read_children,
        hread, hread']
      cases hc : r.isComment with
      | true =>
        -- A comment is not of the kind looked for, and there is nothing below it.
        obtain ⟨hkind, hempty⟩ := Bool.and_eq_true_iff.mp hc
        have hne : (r.kind == kind) = false := by
          rw [beq_eq_false_iff_ne]
          rintro rfl
          rw [hk] at hkind
          cases hkind
        have hnone : below.map (Row.read source) = none := by
          rw [← hread', List.isEmpty_iff.mp hempty]
          rfl
        rw [kept_cons_of_isComment hc, hbare, hne, hnone]
        refine ⟨later, hrest, ?_, rfl⟩
        cases r.named <;> rfl
      | false =>
        rw [kept_cons_of_not hc, List.map_cons, firstIn?, readBare_named, readBare_kind, descendant?_eq,
          readBare_children, hbare, hbare']
        cases r.named with
        | false => exact ⟨later, hrest, rfl, rfl⟩
        | true =>
          cases r.kind == kind with
          | true =>
            refine ⟨some r, ?_, rfl, rfl⟩
            rintro d ⟨⟩
            exact ⟨r, by simp, r.mem_rows_self⟩
          | false =>
            cases below with
            | none => exact ⟨later, hrest, rfl, rfl⟩
            | some d =>
              refine ⟨some d, ?_, rfl, rfl⟩
              rintro d' ⟨⟩
              obtain ⟨x, hx, hdx⟩ := hbelow d rfl
              exact ⟨r, by simp, Row.mem_rows_of_child hx hdx⟩

end Searches

end CoroutineCheck.Kotlin

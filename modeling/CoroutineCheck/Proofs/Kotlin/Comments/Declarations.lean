import CoroutineCheck.Proofs.Kotlin.Comments.Expressions
/-!
# Declarations between comments

Packages, classes, functions, parameters and properties are read as the same without comments. What
may be a comment here is the row after a colon, taken for a type, and the row behind the sign of a
property, taken for its value.
-/
namespace CoroutineCheck.Kotlin

open Reading Outline

section Readers

variable {source : List Char} {rows : List Row}

theorem readPackage?_kept (span : Span) (rows : List Row) :
    readPackage? source span ((kept rows).map (Row.readBare source)) =
      readPackage? source span (rows.map (Row.read source)) := by
  have hkinds : ∀ k : String, (k == "qualified_identifier" || k == "identifier") = true →
      commentKinds.contains k = false := by
    intro k hk
    rw [Bool.or_eq_true, beq_iff_eq, beq_iff_eq] at hk
    rcases hk with rfl | rfl <;> decide
  obtain ⟨hread, hbare⟩ := find?_kind_read source hkinds (rows.filter Row.named)
  unfold readPackage?
  rw [namedOf_read, namedOf_readBare, hread, hbare, Option.map_map, Option.map_map]
  simp [Function.comp_def]

private theorem readSupertype_kept (r : Row) :
    readSupertype source (r.readBare source) = readSupertype source (r.read source) := by
  obtain ⟨found, _, hread, hbare⟩ := firstIn?_read source "user_type" (by decide) r.children
  unfold readSupertype
  rw [descendant?_eq, descendant?_eq, Row.read_children, readBare_children, hread, hbare, readBare_span,
    Row.read_span]
  cases found with
  | none => rfl
  | some d => simp

private theorem readSupertypes_kept (rows : List Row) :
    readSupertypes source ((kept rows).map (Row.readBare source)) =
      readSupertypes source (rows.map (Row.read source)) := by
  -- What is taken from one row is taken with and without comments, and nothing from a comment.
  have hspecifiers (cs : List Row) :
      ((namedOf ((kept cs).map (Row.readBare source))).filter
        fun c => Text.contains "delegation_specifier".toList c.kind.toList).map (readSupertype source) =
      ((namedOf (cs.map (Row.read source))).filter
        fun c => Text.contains "delegation_specifier".toList c.kind.toList).map (readSupertype source) := by
    have hkept := filter_kept
      (p := fun c => Text.contains "delegation_specifier".toList c.kind.toList) (fun c hc => by
        cases hcomment : c.isComment with
        | false => rfl
        | true =>
          rw [(by decide : ∀ k ∈ commentKinds, Text.contains "delegation_specifier".toList k.toList =
            false) c.kind (mem_commentKinds hcomment)] at hc
          cases hc) (cs.filter Row.named)
    rw [namedOf_read, namedOf_readBare, List.filter_map, List.filter_map, List.map_map, List.map_map]
    simp only [Function.comp_def, readBare_kind, Row.read_kind, hkept, readSupertype_kept]
  unfold readSupertypes
  congr 1
  rw [namedOf_read, namedOf_readBare, List.flatMap_map, List.flatMap_map]
  simp only [readBare_kind, Row.read_kind, readBare_children, Row.read_children, hspecifiers,
    readSupertype_kept]
  induction rows.filter Row.named with
  | nil => rfl
  | cons r rest ih =>
    cases hc : r.isComment with
    | false => rw [kept_cons_of_not hc, List.flatMap_cons, List.flatMap_cons, ih]
    | true =>
      have hkind := (by decide : ∀ k ∈ commentKinds, (k == "delegation_specifiers") = false ∧
        (k == "delegation_specifier") = false) r.kind (mem_commentKinds hc)
      rw [kept_cons_of_isComment hc, List.flatMap_cons, ih, hkind.1, hkind.2]
      rfl

private theorem eraseP_isIdentifier_read (source : List Char) (rows : List Row) :
    (rows.map (Row.read source)).eraseP isIdentifier =
        (rows.eraseP fun r => identifierKinds.contains r.kind).map (Row.read source) ∧
      ((kept rows).map (Row.readBare source)).eraseP isIdentifier =
        (kept (rows.eraseP fun r => identifierKinds.contains r.kind)).map (Row.readBare source) := by
  rw [kept_eraseP fun r hr => not_isComment (not_comment_of_identifierKind r.kind hr), List.eraseP_map,
    List.eraseP_map]
  simp [Function.comp_def, isIdentifier]

theorem readClass_kept (kind : String) (span : Span) (hready : Ready source rows) :
    (readClass source kind span ((kept rows).map (Row.readBare source))).trim =
      (readClass source kind span (rows.map (Row.read source))).trim := by
  obtain ⟨hread, hbare⟩ := find?_identifier_read source (rows.filter Row.named)
  obtain ⟨herase, herase'⟩ := eraseP_isIdentifier_read source (rows.filter Row.named)
  have hagrees : ∀ r ∈ ((rows.filter Row.named).eraseP fun r => identifierKinds.contains r.kind).filter
      (fun r => !delegationKinds.contains r.kind), r.Agrees source := fun r hr =>
    hready.agrees (List.mem_filter.mp (List.mem_of_mem_eraseP (List.mem_filter.mp hr).1)).1
  unfold readClass
  rw [namedOf_read, namedOf_readBare, hread, hbare, herase, herase', readSupertypes_kept,
    List.filter_map, List.filter_map]
  simp only [Function.comp_def, readBare_kind, Row.read_kind, ← kept_filter, trim,
    trimAll_outlines_kept hagrees]
  cases (rows.filter Row.named).find? fun r => identifierKinds.contains r.kind <;> simp

theorem readFunction_kept (span : Span) (hready : Ready source rows)
    (h : ∀ c ∈ picksOf "function_declaration" (rows.map (Row.read source)), c.isBlank = false) :
    (readFunction source span ((kept rows).map (Row.readBare source))).trim =
      (readFunction source span (rows.map (Row.read source))).trim := by
  have hpicks : ∀ c ∈ ((rowsAfter? "function_value_parameters" (rows.map (Row.read source))).bind
      typeRow?).toList, c.isBlank = false := h
  obtain ⟨rest, hafter, hafter', _⟩ :=
    rowsAfter?_read source (k := "function_value_parameters") (by decide) rows
  have hreturns : (rowsAfter? "function_value_parameters" ((kept rows).map (Row.readBare source))).bind
      (typeAfterColon? source) =
      (rowsAfter? "function_value_parameters" (rows.map (Row.read source))).bind
        (typeAfterColon? source) := by
    rw [hafter] at hpicks
    rw [hafter, hafter']
    cases rest with
    | none => rfl
    | some l => exact typeAfterColon?_kept fun c hc => hpicks c (Option.mem_toList.mpr hc)
  obtain ⟨hread, hbare⟩ := find?_identifier_read source rows
  obtain ⟨herase, herase'⟩ := eraseP_isIdentifier_read source rows
  have hagrees : ∀ r ∈ (rows.eraseP fun r => identifierKinds.contains r.kind).filter Row.named,
      r.Agrees source := fun r hr => hready.agrees (List.mem_of_mem_eraseP (List.mem_filter.mp hr).1)
  unfold readFunction
  rw [hreturns, hread, hbare, herase, herase', namedOf_read, namedOf_readBare]
  simp only [trim, trimAll_outlines_kept hagrees]
  cases rows.find? fun r => identifierKinds.contains r.kind <;> simp

theorem readParameter_kept (hready : Ready source rows)
    (h : ∀ c ∈ typeRow? (rows.map (Row.read source)), c.isBlank = false) :
    (readParameter source ((kept rows).map (Row.readBare source))).trim =
      (readParameter source (rows.map (Row.read source))).trim := by
  obtain ⟨herase, herase'⟩ := eraseP_isIdentifier_read source (rows.filter Row.named)
  have hagrees : ∀ r ∈ (rows.filter Row.named).eraseP fun r => identifierKinds.contains r.kind,
      r.Agrees source := fun r hr => hready.agrees (List.mem_filter.mp (List.mem_of_mem_eraseP hr)).1
  unfold readParameter
  rw [readTyped?_kept h, namedOf_read, namedOf_readBare, herase, herase']
  simp only [trim, trimAll_outlines_kept hagrees]

/-! ## Properties -/

/-- The parts of a property are the same, up to items that come to nothing. -/
structure PropertyParts.Alike (p p' : PropertyParts) : Prop where
  decl : p'.decl = p.decl
  before : trimAll p'.before = trimAll p.before
  initializer : p'.initializer.map trim = p.initializer.map trim
  after : trimAll p'.after = trimAll p.after

def valueIn? (sawSign : Bool) (rows : List Reading) : Option Reading :=
  if sawSign then rows.find? fun r => r.named && r.kind != "variable_declaration" && r.kind != "="
  else valueRow? rows

private theorem trimAll_snoc (os : List Outline) (o : Outline) :
    trimAll (os ++ [o]) = trimAll os ++ trimAll [o] := by
  simp

private theorem trimAll_congr {os os' : List Outline} {o o' : Outline} (hos : trimAll os' = trimAll os)
    (ho : o'.trim = o.trim) : trimAll (os' ++ [o']) = trimAll (os ++ [o]) := by
  rw [trimAll_snoc, trimAll_snoc, hos, trimAll, trimAll, ho]
  rfl

private theorem valueIn?_cons {sawSign : Bool} {r : Reading} (rest : List Reading)
    (hskip : (r.named && r.kind != "variable_declaration") = false ∨ sawSign = false)
    (hsign : r.kind ≠ "=") : valueIn? sawSign (r :: rest) = valueIn? sawSign rest := by
  unfold valueIn? valueRow?
  cases sawSign with
  | true =>
    have hneg : (r.named && r.kind != "variable_declaration") = false := by simpa using hskip
    rw [if_pos rfl, if_pos rfl, List.find?_cons_of_neg (by rw [hneg]; exact Bool.false_ne_true)]
  | false =>
    rw [if_neg Bool.false_ne_true, if_neg Bool.false_ne_true, rowsAfter?,
      if_neg (by simpa using hsign)]

private theorem valueIn?_sign {sawSign : Bool} {r : Reading} (rest : List Reading) (hsign : r.kind = "=") :
    valueIn? sawSign (r :: rest) = valueIn? true rest := by
  unfold valueIn? valueRow?
  cases sawSign with
  | true => rw [if_pos rfl, if_pos rfl, List.find?_cons_of_neg (by simp [hsign])]
  | false =>
    rw [if_neg Bool.false_ne_true, if_pos rfl, rowsAfter?, if_pos (by simpa using hsign)]
    rfl

private theorem propertyParts_comment {r : Row} {rest : List Reading} {sawSign : Bool} {p p' : PropertyParts}
    (hc : r.isComment = true) (halike : p.Alike p')
    (hvalue : p.initializer = none →
      ∀ c ∈ valueIn? sawSign (r.read source :: rest), c.isBlank = false) :
    ∃ q : PropertyParts, q.Alike p' ∧
      (q.initializer = none → ∀ c ∈ valueIn? sawSign rest, c.isBlank = false) ∧
      propertyParts source sawSign p (r.read source :: rest) = propertyParts source sawSign q rest := by
  have hkinds := (by decide : ∀ k ∈ commentKinds, k ≠ "variable_declaration" ∧ k ≠ "=") r.kind
    (mem_commentKinds hc)
  have hsign : (r.read source).kind ≠ "=" := by simpa using hkinds.2
  have hadd (os : List Outline) : trimAll (os ++ [(r.read source).outline]) = trimAll os := by
    rw [trimAll_snoc, outline_of_isComment hc]
    exact List.append_nil _
  rw [propertyParts, if_neg (by simpa using hkinds.1), if_neg (by simpa using hkinds.2)]
  cases hnamed : r.named with
  | false =>
    rw [if_pos (by simp [hnamed])]
    rw [valueIn?_cons rest (.inl (by simp [hnamed])) hsign] at hvalue
    exact ⟨p, halike, hvalue, rfl⟩
  | true =>
    rw [if_neg (by simp [hnamed])]
    split
    case isTrue hfirst =>
      obtain ⟨hsaw, hp⟩ := Bool.and_eq_true_iff.mp hfirst
      have hblank := hvalue (Option.isNone_iff_eq_none.mp hp) (r.read source) (by
        rw [valueIn?, if_pos hsaw, List.find?_cons_of_pos (by simp [hnamed, hkinds])]
        rfl)
      rw [isBlank_read, hc] at hblank
      cases hblank
    case isFalse hfirst =>
      split
      case isTrue hbefore =>
        have hsaw : sawSign = false := by simpa [hbefore] using hfirst
        rw [valueIn?_cons rest (.inr hsaw) hsign] at hvalue
        have hsame : PropertyParts.Alike { p with before := p.before ++ [(r.read source).outline] } p' :=
          ⟨halike.decl, by rw [hadd, halike.before], halike.initializer, halike.after⟩
        exact ⟨_, hsame, hvalue, rfl⟩
      case isFalse hbehind =>
        have hsame : PropertyParts.Alike { p with after := p.after ++ [(r.read source).outline] } p' :=
          ⟨halike.decl, halike.before, halike.initializer, by rw [hadd, halike.after]⟩
        exact ⟨_, hsame, fun hp => absurd (Option.isNone_iff_eq_none.mpr hp) hbehind, rfl⟩

private theorem propertyParts_kept (hready : Ready source rows) (sawSign : Bool) {p p' : PropertyParts}
    (halike : p.Alike p')
    (hvalue : p.initializer = none →
      ∀ c ∈ valueIn? sawSign (rows.map (Row.read source)), c.isBlank = false) :
    (propertyParts source sawSign p (rows.map (Row.read source))).Alike
      (propertyParts source sawSign p' ((kept rows).map (Row.readBare source))) := by
  induction rows generalizing sawSign p p' with
  | nil => exact halike
  | cons r rest ih =>
    have hmem : r ∈ r :: rest := List.mem_cons_self
    have hrest : Ready source rest := hready.mono fun x hx => List.mem_cons_of_mem r hx
    have hnone : p'.initializer.isNone = p.initializer.isNone := by
      simpa using congrArg Option.isNone halike.initializer
    rw [List.map_cons] at hvalue ⊢
    -- The search for the value goes on behind a row that it passes over.
    have hover (hskip : (r.named && r.kind != "variable_declaration") = false ∨ sawSign = false)
        (hsign : r.kind ≠ "=") : p.initializer = none →
          ∀ c ∈ valueIn? sawSign (rest.map (Row.read source)), c.isBlank = false := by
      rw [← valueIn?_cons (r := r.read source) _ (by simpa using hskip) (by simpa using hsign)]
      exact hvalue
    cases hc : r.isComment with
    | true =>
      obtain ⟨q, hq, hsearch, heq⟩ := propertyParts_comment hc halike hvalue
      rw [kept_cons_of_isComment hc, heq]
      exact ih hrest sawSign hq hsearch
    | false =>
      rw [kept_cons_of_not hc, List.map_cons, propertyParts, propertyParts, readBare_kind, Row.read_kind,
        readBare_named, Row.read_named, hnone]
      split
      case isTrue hdecl =>
        have hkind : r.kind = "variable_declaration" := by simpa using hdecl
        have htyped : readTyped? source (r.readBare source).children =
            readTyped? source (r.read source).children := by
          rw [readBare_children, Row.read_children]
          refine readTyped?_kept fun c hc => hready.clean hmem c ?_
          rw [hkind, Row.read_children]
          exact Option.mem_toList.mpr hc
        exact ih hrest sawSign ⟨htyped, halike.before, halike.initializer, halike.after⟩
          (hover (.inl (by simp [hkind])) (by simp [hkind]))
      case isFalse =>
        split
        case isTrue hsign =>
          rw [valueIn?_sign (r := r.read source) _ (by simpa using hsign)] at hvalue
          exact ih hrest true halike hvalue
        case isFalse hsign =>
          have hne : r.kind ≠ "=" := by simpa using hsign
          split
          case isTrue hanon => exact ih hrest sawSign halike (hover (.inl (by simp_all)) hne)
          case isFalse =>
            split
            case isTrue =>
              refine ih hrest sawSign ⟨halike.decl, halike.before, ?_, halike.after⟩ nofun
              simp [(hready.agrees hmem).expression]
            case isFalse hfirst =>
              have hadd {os os' : List Outline} (hos : trimAll os' = trimAll os) :=
                trimAll_congr hos (hready.agrees hmem).outline
              split
              case isTrue hbefore =>
                have hsaw : sawSign = false := by simpa [hbefore] using hfirst
                exact ih hrest sawSign
                  ⟨halike.decl, hadd halike.before, halike.initializer, halike.after⟩
                  (hover (.inr hsaw) hne)
              case isFalse hbehind =>
                refine ih hrest sawSign
                  ⟨halike.decl, halike.before, halike.initializer, hadd halike.after⟩ fun hp => ?_
                exact absurd (Option.isNone_iff_eq_none.mpr hp) hbehind

theorem readProperty_kept (hready : Ready source rows)
    (h : ∀ c ∈ valueRow? (rows.map (Row.read source)), c.isBlank = false) :
    (readProperty source ((kept rows).map (Row.readBare source))).trim =
      (readProperty source (rows.map (Row.read source))).trim := by
  have halike : PropertyParts.Alike ⟨none, [], none, []⟩ ⟨none, [], none, []⟩ := ⟨rfl, rfl, rfl, rfl⟩
  have hparts := propertyParts_kept hready false halike fun _ => h
  unfold readProperty
  simp only [trim, trimOption_eq, hparts.decl, hparts.before, hparts.initializer, hparts.after]

end Readers

end CoroutineCheck.Kotlin

import CoroutineCheck.Proofs.Kotlin.Comments.Declarations
import CoroutineCheck.Proofs.Kotlin.Nesting
/-!
# Files without comments

As long as no picked row is a comment, a file is laid out in the same way without comments, with the
same declarations. Where a comment is picked, it takes the place of the expression or the type.
-/
namespace CoroutineCheck.Kotlin

open Reading Outline

section Readers

variable {source : List Char} {rows : List Row}

/-- What a row of a kind is read as is the same, if it picks no comment. -/
private theorem readRow_kept (kind : String) (span : Span) {call call' : Option Outline}
    (hcall : call'.map trim = call.map trim) (hready : Ready source rows)
    (h : ∀ c ∈ picksOf kind (rows.map (Row.read source)), c.isBlank = false) :
    (readRow source kind span call' ((kept rows).map (Row.readBare source))).trim =
      (readRow source kind span call (rows.map (Row.read source))).trim := by
  have hgroup : (Outline.group (outlines (namedOf ((kept rows).map (Row.readBare source))))).trim =
      (Outline.group (outlines (namedOf (rows.map (Row.read source))))).trim := by
    rw [trim, trim, hready.trimAll_named]
  have horGroup {o o' : Option Outline} (ho : o'.map trim = o.map trim) :
      (o'.getD (.group (outlines (namedOf ((kept rows).map (Row.readBare source)))))).trim =
        (o.getD (.group (outlines (namedOf (rows.map (Row.read source)))))).trim := by
    rw [← Option.getD_map trim, ← Option.getD_map trim, ho, hgroup]
  unfold readRow
  by_cases hid : identifierKinds.contains kind = true
  · rw [if_pos hid, if_pos hid]
  by_cases hnone : (typeKinds.contains kind || commentKinds.contains kind) = true
  · rw [if_neg hid, if_neg hid, if_pos hnone, if_pos hnone]
  rw [if_neg hid, if_neg hid, if_neg hnone, if_neg hnone]
  split
  case h_1 => exact congrArg (fun info => (Outline.package info).trim) (readPackage?_kept span rows)
  case h_2 | h_3 => rfl
  case h_4 => exact horGroup hcall
  case h_5 => exact horGroup (readNavigation?_kept span hready h)
  case h_6 | h_7 => exact horGroup (readSum?_kept span hready h)
  case h_8 =>
    obtain ⟨inner, hmem, hread, hbare⟩ := head?_named_read fun c hc => h c (Option.mem_toList.mpr hc)
    rw [hread, hbare]
    cases inner with
    | none => rfl
    | some r => simp [trim, (hready.agrees (hmem r rfl)).expression]
  case h_9 | h_10 => exact readLambda_kept _ span hready
  case h_11 | h_12 => exact readClass_kept _ span hready
  case h_13 => exact readFunction_kept span hready h
  case h_14 => exact readProperty_kept hready fun c hc => h c (Option.mem_toList.mpr hc)
  case h_15 | h_16 => exact readParameter_kept hready fun c hc => h c (Option.mem_toList.mpr hc)
  case h_17 => exact hgroup

end Readers

private theorem agrees_of_clean {source : List Char} {root : Row} (h : ∀ r ∈ root.rows, r.Clean source) :
    ∀ r ∈ root.rows, r.Agrees source := by
  induction root using Row.children_induction with
  | h root ih =>
    have hready : Ready source root.children := by
      intro c hc r hr
      refine ⟨ih c hc ?_ r hr, h r (Row.mem_rows_of_child hc hr)⟩
      exact fun d hd => h d (Row.mem_rows_of_child hc hd)
    have hclean := h root root.mem_rows_self
    unfold Row.Clean at hclean
    rw [Row.read_children] at hclean
    have hcall : (root.readBare source).call.map trim = (root.read source).call.map trim := by
      rw [readBare_call, Row.read_call]
      split
      case isTrue hkind =>
        rw [beq_iff_eq.mp hkind] at hclean
        exact readCall?_kept root.span hready fun c hc => hclean c (Option.mem_toList.mpr hc)
      case isFalse => rfl
    intro r hr
    rw [Row.rows_eq] at hr
    rcases List.mem_cons.mp hr with rfl | hr
    · refine ⟨?_, hcall⟩
      rw [readBare_outline, Row.read_outline]
      exact readRow_kept _ _ hcall hready hclean
    · obtain ⟨c, hc, hr⟩ := List.mem_flatMap.mp hr
      exact (hready c hc r hr).1

/-- Comments do not matter where none is picked: the tree and the declarations of a file are the same
without them. -/
theorem layout_withoutComments {source : String} {root : Row}
    (h : ∀ r ∈ root.rows, r.Clean source.toList) :
    layout source root.withoutComments = layout source root := by
  have hagrees := agrees_of_clean h
  have houtlines : trimAll (outlineOf source.toList root.withoutComments) =
      trimAll (outlineOf source.toList root) := by
    unfold outlineOf
    rw [Row.readAll_eq, Row.readAll_eq, read_withoutComments_children, namedOf_read, namedOf_readBare]
    refine trimAll_outlines_kept fun r hr => hagrees r ?_
    exact Row.mem_rows_of_child (List.mem_filter.mp hr).1 r.mem_rows_self
  unfold layout
  simp only [Row.withoutComments_kind]
  rw [← placeAll_trim, houtlines, placeAll_trim]

def commentedCall : String := "val y = g(a /*c*/, b = c // d\n)\n"

def commentedCallRows : Row :=
  .over "source_file" 0 32 [.over "property_declaration" 0 31 [.token "val" 0 3,
    .over "variable_declaration" 4 5 [.over "identifier" 4 5 []], .token "=" 6 7,
    .over "call_expression" 8 31 [.over "identifier" 8 9 [], .over "value_arguments" 9 31 [
      .token "(" 9 10, .over "value_argument" 10 11 [.over "identifier" 10 11 []],
      .over "block_comment" 12 17 [], .token "," 17 18,
      .over "value_argument" 19 24 [.over "identifier" 19 20 [], .token "=" 21 22,
        .over "identifier" 23 24 []],
      .over "line_comment" 25 29 [], .token ")" 30 31]]]]

theorem layout_withoutComments_commentedCall :
    (∀ r ∈ commentedCallRows.rows, r.Clean commentedCall.toList) ∧
    (commentedCallRows.rows.filter Row.isComment).length = 2 ∧
    commentedCallRows.withoutComments.rows.filter Row.isComment = [] ∧
    (layout commentedCall commentedCallRows).tree.shape 5 = .call none 0 [2, 4] none ∧
    layout commentedCall commentedCallRows.withoutComments = layout commentedCall commentedCallRows := by
  have hclean : ∀ r ∈ commentedCallRows.rows, r.Clean commentedCall.toList := by decide +kernel
  exact ⟨hclean, by decide +kernel, List.length_eq_zero_iff.mp (by decide +kernel), by decide +kernel,
    @layout_withoutComments commentedCall commentedCallRows hclean⟩

/-- A property with a comment where its type begins, and one where its value begins. -/
def commentedValue : String := "val x /* c */ : /* d */ Job = /* e */ Job()\n"

def commentedValueRows : Row :=
  .over "source_file" 0 44 [.over "property_declaration" 0 43 [.token "val" 0 3,
    .over "variable_declaration" 4 27 [.over "identifier" 4 5 [], .over "block_comment" 6 13 [],
      .token ":" 14 15, .over "block_comment" 16 23 [],
      .over "user_type" 24 27 [.over "identifier" 24 27 []]],
    .token "=" 28 29, .over "block_comment" 30 37 [],
    .over "call_expression" 38 43 [.over "identifier" 38 41 [],
      .over "value_arguments" 41 43 [.token "(" 41 42, .token ")" 42 43]]]]

/-- The comments are taken for the type and the value. -/
theorem layout_takes_comments :
    commentedValueRows.WellPlaced commentedValue.toList ∧
    ((layout commentedValue commentedValueRows).tree.shape 0 = .other "block_comment" ∧
      (layout commentedValue commentedValueRows).declarations.bindings.map
        (fun v => (v.type, v.initializer)) = [(some "/*d*/", some 0)]) ∧
    ((layout commentedValue commentedValueRows.withoutComments).tree.shape 0 = .identifier "Job" ∧
      (layout commentedValue commentedValueRows.withoutComments).declarations.bindings.map
        (fun v => (v.type, v.initializer)) = [(some "Job", some 1)]) ∧
    layout commentedValue commentedValueRows.withoutComments ≠
      layout commentedValue commentedValueRows := by
  have htaken : (layout commentedValue commentedValueRows).tree.shape 0 = .other "block_comment" := by
    decide +kernel
  have hbare : (layout commentedValue commentedValueRows.withoutComments).tree.shape 0 =
      .identifier "Job" := by
    decide +kernel
  refine ⟨by decide +kernel, ⟨htaken, by decide +kernel⟩, ⟨hbare, by decide +kernel⟩, ?_⟩
  intro hsame
  rw [hsame, htaken] at hbare
  cases hbare

end CoroutineCheck.Kotlin

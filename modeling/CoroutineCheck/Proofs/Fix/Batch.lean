import CoroutineCheck.Fix.Batch
import CoroutineCheck.Proofs.Fix.Separation
import Mathlib.Data.List.Basic
import Mathlib.Tactic.Push
/-!
# What a batch of fixes does

Triage takes the fixes in order and keeps one list of accepted edits. That list is always the edits of
the fixes applied so far, and no two of them conflict; so the text of a batch is well defined, and it
is the source with the applied edits performed one at a time.
-/
namespace CoroutineCheck.Fix

/-- The edits of the fixes at some positions of a list that is numbered from `first`. -/
def editsAt (fixes : List Fix) (first : Nat) (positions : List Nat) : List Edit :=
  (positions.filterMap fun j => fixes[j - first]?).flatMap edits

private theorem editsAt_cons (f : Fix) (fs : List Fix) (i : Nat) {positions : List Nat}
    (h : ∀ j ∈ positions, i + 1 ≤ j) :
    editsAt (f :: fs) i positions = editsAt fs (i + 1) positions := by
  unfold editsAt
  congr 1
  apply List.filterMap_congr
  intro j hj
  have hle := h j hj
  rw [show j - i = (j - (i + 1)) + 1 by omega, List.getElem?_cons_succ]

private theorem mem_editsAt {fixes : List Fix} {first : Nat} {positions : List Nat} {d : Edit} :
    d ∈ editsAt fixes first positions ↔
      ∃ j ∈ positions, ∃ g, fixes[j - first]? = some g ∧ d ∈ g.edits := by
  simp only [editsAt, List.mem_flatMap, List.mem_filterMap]
  constructor
  · rintro ⟨g, ⟨j, hj, hg⟩, hd⟩
    exact ⟨j, hj, g, hg, hd⟩
  · rintro ⟨j, hj, g, hg, hd⟩
    exact ⟨g, ⟨j, hj, hg⟩, hd⟩

theorem skipReason?_ne_none_iff {source : List Char} {accepted : List Edit} {f : Fix} :
    f.skipReason? source accepted ≠ none ↔
      f.rejection? source ≠ none ∨
        ∃ d ∈ accepted, ∃ e ∈ f.edits, d.span.conflicts e.span = true := by
  unfold skipReason?
  split
  case h_1 r hr => simp [hr]
  case h_2 hr =>
    simp only [hr, ne_eq, not_true_eq_false, false_or]
    rw [clash?, List.findSome?_eq_none_iff]
    constructor
    · intro h
      push Not at h
      obtain ⟨e, he, hne⟩ := h
      obtain ⟨d, hd⟩ := Option.isSome_iff_exists.mp (by
        simpa using Option.isSome_iff_ne_none.mpr hne :
        (accepted.find? (·.span.conflicts e.span)).isSome = true)
      exact ⟨d, List.mem_of_find?_eq_some hd, e, he, by simpa using List.find?_some hd⟩
    · rintro ⟨d, hd, e, he, hc⟩ h
      have hnone := h e he
      rw [Option.map_eq_none_iff, List.find?_eq_none] at hnone
      exact hnone d hd hc

variable (source : List Char)

private theorem triage_append (i : Nat) (accepted : List Edit) (fs gs : List Fix) :
    triage source i accepted (fs ++ gs) =
      let t := triage source i accepted fs
      let u := triage source (i + fs.length) t.accepted gs
      ⟨u.accepted, t.applied ++ u.applied, t.skipped ++ u.skipped⟩ := by
  induction fs generalizing i accepted with
  | nil => rfl
  | cons f fs ih =>
    have hlen : i + (f :: fs).length = i + 1 + fs.length := by
      rw [List.length_cons]
      omega
    rw [List.cons_append, hlen]
    cases hr : f.skipReason? source accepted with
    | some r => simp only [triage, hr, ih, List.cons_append]
    | none => simp only [triage, hr, ih, List.cons_append]

private theorem triage_partition (i : Nat) (accepted : List Edit) (fs : List Fix) :
    ((triage source i accepted fs).applied ++ (triage source i accepted fs).skipped.map Prod.fst).Perm
      (List.range' i fs.length) := by
  induction fs generalizing i accepted with
  | nil => exact .nil
  | cons f fs ih =>
    rw [List.length_cons, List.range'_succ]
    cases hr : f.skipReason? source accepted with
    | some r =>
      simp only [triage, hr, List.map_cons]
      exact List.perm_middle.trans ((ih (i + 1) accepted).cons i)
    | none =>
      simp only [triage, hr, List.cons_append]
      exact (ih (i + 1) (accepted ++ f.edits)).cons i

private theorem mem_range_of_applied {i j : Nat} {accepted : List Edit} {fs : List Fix}
    (h : j ∈ (triage source i accepted fs).applied) : i ≤ j ∧ j < i + fs.length := by
  have hmem := (triage_partition source i accepted fs).mem_iff.mp (List.mem_append_left _ h)
  simpa using List.mem_range'_1.mp hmem

private theorem mem_range_of_skipped {i j : Nat} {accepted : List Edit} {fs : List Fix}
    (h : j ∈ (triage source i accepted fs).skipped.map Prod.fst) : i ≤ j ∧ j < i + fs.length := by
  have hmem := (triage_partition source i accepted fs).mem_iff.mp (List.mem_append_right _ h)
  simpa using List.mem_range'_1.mp hmem

private theorem triage_increasing (i : Nat) (accepted : List Edit) (fs : List Fix) :
    (triage source i accepted fs).applied.Pairwise (· < ·) ∧
      ((triage source i accepted fs).skipped.map Prod.fst).Pairwise (· < ·) := by
  induction fs generalizing i accepted with
  | nil => exact ⟨.nil, .nil⟩
  | cons f fs ih =>
    cases hr : f.skipReason? source accepted with
    | some r =>
      simp only [triage, hr, List.map_cons]
      refine ⟨(ih (i + 1) accepted).1, List.pairwise_cons.mpr ⟨?_, (ih (i + 1) accepted).2⟩⟩
      intro j hj
      have := mem_range_of_skipped source hj
      omega
    | none =>
      simp only [triage, hr]
      refine ⟨List.pairwise_cons.mpr ⟨?_, (ih (i + 1) _).1⟩, (ih (i + 1) _).2⟩
      intro j hj
      have := mem_range_of_applied source hj
      omega

theorem triage_accepted (i : Nat) (accepted : List Edit) (fs : List Fix) :
    (triage source i accepted fs).accepted =
      accepted ++ editsAt fs i (triage source i accepted fs).applied := by
  induction fs generalizing i accepted with
  | nil => simp [triage, editsAt]
  | cons f fs ih =>
    cases hr : f.skipReason? source accepted with
    | some r =>
      simp only [triage, hr]
      rw [editsAt_cons f fs i fun j hj => (mem_range_of_applied source hj).1]
      exact ih (i + 1) accepted
    | none =>
      simp only [triage, hr]
      rw [ih, List.append_assoc]
      congr 1
      rw [← editsAt_cons f fs i fun j hj => (mem_range_of_applied source hj).1]
      simp [editsAt]

/-- One step of triage keeps the accepted edits on the source and free of conflicts. -/
private theorem clear_append {accepted : List Edit} {f : Fix}
    (hs : f.skipReason? source accepted = none)
    (h : (∀ e ∈ accepted, e.span.OnSource source) ∧ accepted.Pairwise Edit.Clear) :
    (∀ e ∈ accepted ++ f.edits, e.span.OnSource source) ∧
      (accepted ++ f.edits).Pairwise Edit.Clear := by
  have hnot := mt skipReason?_ne_none_iff.mpr (not_not.mpr hs)
  push Not at hnot
  obtain ⟨hon, hc⟩ := rejection?_eq_none_iff.mp hnot.1
  constructor
  · intro e he
    rcases List.mem_append.mp he with he | he
    · exact h.1 e he
    · exact hon e he
  · refine List.pairwise_append.mpr ⟨h.2, hc, ?_⟩
    intro d hd e he
    exact Bool.eq_false_iff.mpr (hnot.2 d hd e he)

private theorem triage_clear (i : Nat) {accepted : List Edit} (fs : List Fix)
    (h : (∀ e ∈ accepted, e.span.OnSource source) ∧ accepted.Pairwise Edit.Clear) :
    (∀ e ∈ (triage source i accepted fs).accepted, e.span.OnSource source) ∧
      (triage source i accepted fs).accepted.Pairwise Edit.Clear := by
  induction fs generalizing i accepted with
  | nil => exact h
  | cons f fs ih =>
    cases hr : f.skipReason? source accepted with
    | some r =>
      simp only [triage, hr]
      exact ih (i + 1) h
    | none =>
      simp only [triage, hr]
      exact ih (i + 1) (clear_append source hr h)

private theorem mem_skipped_iff (front : List Fix) (f : Fix) (back : List Fix) :
    front.length ∈ (triage source 0 [] (front ++ f :: back)).skipped.map Prod.fst ↔
      f.skipReason? source (triage source 0 [] front).accepted ≠ none := by
  simp only [triage_append, List.map_append, List.mem_append, Nat.zero_add]
  have hfront : front.length ∉ (triage source 0 [] front).skipped.map Prod.fst := by
    intro h
    have := mem_range_of_skipped source h
    omega
  cases hr : f.skipReason? source (triage source 0 [] front).accepted with
  | some r => simp [triage, hr]
  | none =>
    simp only [triage, hr, ne_eq, not_true_eq_false, iff_false, not_or]
    refine ⟨hfront, ?_⟩
    intro h
    have := mem_range_of_skipped source h
    omega

/-- Of the applied positions, those before a fix are the ones applied among the fixes before it. -/
private theorem mem_applied_front_iff (front back : List Fix) (j : Nat) :
    j ∈ (triage source 0 [] front).applied ↔
      j ∈ (triage source 0 [] (front ++ back)).applied ∧ j < front.length := by
  simp only [triage_append, List.mem_append, Nat.zero_add]
  constructor
  · intro h
    have := mem_range_of_applied source h
    exact ⟨.inl h, by omega⟩
  · rintro ⟨h | h, hlt⟩
    · exact h
    · have := mem_range_of_applied source h
      omega

private theorem mem_skipped_iff_conflict {fixes : List Fix} {i : Nat} {f : Fix} (hf : fixes[i]? = some f) :
    i ∈ (triage source 0 [] fixes).skipped.map Prod.fst ↔
      f.rejection? source ≠ none ∨
        ∃ j ∈ (triage source 0 [] fixes).applied, j < i ∧ ∃ g, fixes[j]? = some g ∧
          ∃ d ∈ g.edits, ∃ e ∈ f.edits, d.span.conflicts e.span = true := by
  obtain ⟨hi, hget⟩ := List.getElem?_eq_some_iff.mp hf
  have hsplit : fixes.take i ++ f :: fixes.drop (i + 1) = fixes := by
    rw [← hget, List.getElem_cons_drop, List.take_append_drop]
  have hlen : (fixes.take i).length = i := by
    rw [List.length_take]
    omega
  -- The fixes before position `i` decide what was accepted when `f` came up.
  have hskip := mem_skipped_iff source (fixes.take i) f (fixes.drop (i + 1))
  have hfront := mem_applied_front_iff source (fixes.take i) (f :: fixes.drop (i + 1))
  rw [hsplit, hlen] at hfront
  rw [hsplit, hlen, skipReason?_ne_none_iff, triage_accepted, List.nil_append] at hskip
  rw [hskip]
  apply or_congr Iff.rfl
  constructor
  · rintro ⟨d, hd, e, he, hc⟩
    obtain ⟨j, hj, g, hg, hdg⟩ := mem_editsAt.mp hd
    obtain ⟨hj', hlt⟩ := (hfront j).mp hj
    rw [Nat.sub_zero, List.getElem?_take, if_pos hlt] at hg
    exact ⟨j, hj', hlt, g, hg, d, hdg, e, he, hc⟩
  · rintro ⟨j, hj, hlt, g, hg, d, hdg, e, he, hc⟩
    refine ⟨d, mem_editsAt.mpr ⟨j, (hfront j).mpr ⟨hj, hlt⟩, g, ?_, hdg⟩, e, he, hc⟩
    rw [Nat.sub_zero, List.getElem?_take, if_pos hlt]
    exact hg

/-- Everything a batch does: which positions are applied and which are skipped, why one is skipped,
that the applied edits do not conflict and can be cut out of the source, and that the text is the one
their performance one at a time gives, from the last place in the source to the first. -/
theorem applyAll_exact (source : String) (fixes : List Fix) :
    let batch := applyAll source fixes
    let edits := (batch.applied.filterMap (fixes[·]?)).flatMap Fix.edits
    (batch.applied ++ batch.skipped.map Prod.fst).Perm (List.range fixes.length) ∧
    batch.applied.Pairwise (· < ·) ∧ (batch.skipped.map Prod.fst).Pairwise (· < ·) ∧
    (∀ i f, fixes[i]? = some f →
      (i ∈ batch.skipped.map Prod.fst ↔
        f.validate source ≠ .ok () ∨
          ∃ j ∈ batch.applied, j < i ∧ ∃ g, fixes[j]? = some g ∧
            ∃ d ∈ g.edits, ∃ e ∈ f.edits, d.span.conflicts e.span = true)) ∧
    edits.Pairwise (fun d e => d.span.conflicts e.span = false) ∧
    Edit.splice? source.toList edits = some batch.text.toList ∧
    (∃ order : List Edit, order.Perm edits ∧
      order.Pairwise fun d e => e.span.start < d.span.start) ∧
    ∀ order : List Edit, order.Perm edits →
      order.Pairwise (fun d e => e.span.start < d.span.start) →
        order.foldlM Edit.perform? source.toList = some batch.text.toList := by
  intro batch edits
  have hpart := triage_partition source.toList 0 [] fixes
  rw [← List.range_eq_range'] at hpart
  have hinc := triage_increasing source.toList 0 [] fixes
  have hedits : edits = (triage source.toList 0 [] fixes).accepted := by
    rw [triage_accepted]
    rfl
  obtain ⟨hon, hclear⟩ := triage_clear source.toList 0 fixes
    (⟨by simp, .nil⟩ : (∀ e ∈ ([] : List Edit), e.span.OnSource source.toList) ∧
      ([] : List Edit).Pairwise Edit.Clear)
  rw [← hedits] at hon hclear
  obtain ⟨text, hsplice, hperform⟩ := Edit.splice?_eq_perform hon hclear
  have htext : batch.text.toList = text := by
    change (String.ofList ((Edit.splice? source.toList
      (triage source.toList 0 [] fixes).accepted).getD source.toList)).toList = text
    rw [← hedits, hsplice, Option.getD_some, String.toList_ofList]
  refine ⟨hpart, hinc.1, hinc.2, ?_, hclear, by rw [hsplice, htext], ?_, ?_⟩
  · intro i f hf
    rw [ne_eq, validate_eq_ok_iff]
    exact mem_skipped_iff_conflict source.toList hf
  · refine ⟨(Edit.sort edits).reverse, (List.reverse_perm _).trans (Edit.sort_perm edits), ?_⟩
    exact List.pairwise_reverse.mpr
      ((Edit.sort_ahead (fun e he => (hon e he).ordered) hclear).imp fun h => h.2)
  · rw [htext]
    exact hperform

end CoroutineCheck.Fix

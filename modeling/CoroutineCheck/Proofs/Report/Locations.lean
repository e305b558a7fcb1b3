import CoroutineCheck.Detector
import CoroutineCheck.Proofs.Report.Order
import CoroutineCheck.Proofs.Suppression.Directives
import CoroutineCheck.Proofs.Text.Lines
import CoroutineCheck.Tree.Builder
/-!
# Locations in a file

A location shows the position of an offset. Positions come in the order of offsets, so violations of one
file are sorted by offset when they are sorted by line and column; and the line whose directives are
looked at for a finding is the line that its location shows.
-/
namespace CoroutineCheck

/-! ## Lines with directives -/

def Directive.Allows (line : List Char) (issue : String) : Prop :=
  ∃ d, ofLine? line = some d ∧ d.covers issue = true

private theorem Directive.isSome_onLine?_iff {lines : List (List Char)} {n : Nat} {issue : String} :
    (onLine? lines n issue).isSome = true ↔
      ∃ line, n ≠ 0 ∧ lines[n - 1]? = some line ∧ Allows line issue := by
  cases n with
  | zero => simp [onLine?]
  | succ n =>
    cases hline : lines[n]? with
    | none => simp [onLine?, hline]
    | some line =>
      rw [onLine?_eq hline]
      unfold Allows
      cases hd : ofLine? line with
      | none => simp [hline, hd]
      | some d => cases hcovers : d.covers issue <;> simp [hline, hd, hcovers]

private theorem Directive.isAllowed_of_onLine? {lines : List (List Char)} {n : Nat} {issue : String}
    {a : Allowance} (h : onLine? lines n issue = some a) : a.isAllowed = true := by
  cases n with
  | zero => simp [onLine?] at h
  | succ n =>
    cases hline : lines[n]? with
    | none => simp [onLine?, hline] at h
    | some line =>
      rw [onLine?_eq hline] at h
      obtain ⟨d, _, h⟩ := Option.bind_eq_some_iff.mp h
      split at h
      · cases h
        rfl
      · cases h

private theorem isAllowed_allowanceAt_iff {content : List Char} {n : Nat} {issue : String} :
    (allowanceAt content n issue).isAllowed = true ↔
      (Directive.onLine? (Text.lines content) (n - 1) issue).isSome = true ∨
        (Directive.onLine? (Text.lines content) n issue).isSome = true := by
  unfold allowanceAt
  cases hbefore : Directive.onLine? (Text.lines content) (n - 1) issue with
  | some a => simp [hbefore, Directive.isAllowed_of_onLine? hbefore]
  | none =>
    cases hhere : Directive.onLine? (Text.lines content) n issue with
    | some a => simp [hbefore, hhere, Directive.isAllowed_of_onLine? hhere]
    | none => simp [hbefore, hhere, Allowance.isAllowed]

/-! ## Sorting -/

def SourceFile.Locates (f : SourceFile) (v : Violation) : Prop :=
  ∃ span : Span, span.start ≤ Text.byteLength f.content ∧ v.location = f.location span

namespace Violation

def compareOffset (v w : Violation) : Ordering :=
  Ord.compare v.location.offset w.location.offset

instance : Std.TransCmp compareOffset :=
  inferInstanceAs (Std.TransCmp (compareOn fun v : Violation => v.location.offset))

private theorem compare_of_before {p q : Text.Position} (h : p.Before q) :
    (Ord.compare p.line q.line).then (Ord.compare p.column q.column) = .lt := by
  rcases h with h | ⟨hline, hcolumn⟩
  · rw [Nat.compare_eq_lt.mpr h]
    rfl
  · rw [Nat.compare_eq_eq.mpr hline, Nat.compare_eq_lt.mpr hcolumn]
    rfl

private theorem compare_eq_lt {f : SourceFile} {v w : Violation} {s t : Span} (hv : v.location = f.location s)
    (hw : w.location = f.location t) (hst : s.start < t.start)
    (ht : t.start ≤ Text.byteLength f.content) : v.compare w = .lt := by
  have hfile : v.compareFile w = .eq := by
    rw [compareFile, hv, hw]
    exact Std.ReflCmp.compare_self
  have hposition : v.comparePosition w = .lt := by
    rw [comparePosition, hv, hw]
    exact compare_of_before (Text.position_before hst ht)
  rw [compare, compareLex, hfile, hposition]
  rfl

private theorem compare_eq_compareOffset {f : SourceFile} {v w : Violation} (hv : f.Locates v)
    (hw : f.Locates w) : v.compare w = v.compareOffset w := by
  obtain ⟨s, hs, hv⟩ := hv
  obtain ⟨t, ht, hw⟩ := hw
  have hoffset : v.compareOffset w = Ord.compare s.start t.start := by
    rw [compareOffset, hv, hw]
    rfl
  rw [hoffset]
  rcases Nat.lt_trichotomy s.start t.start with hlt | heq | hgt
  · rw [compare_eq_lt hv hw hlt ht, Nat.compare_eq_lt.mpr hlt]
  · have hplace : v.comparePosition w = .eq := by
      rw [comparePosition, hv, hw, SourceFile.location, SourceFile.location, heq]
      simp
    rw [Nat.compare_eq_eq.mpr heq, compare_eq_iff, hv, hw]
    exact ⟨rfl, hplace⟩
  · have hswap := @Std.OrientedCmp.eq_swap _ Violation.compare _ v w
    rw [hswap, compare_eq_lt hw hv hgt hs, Nat.compare_eq_gt.mpr hgt]
    rfl

end Violation

private theorem LintResult.sort_eq_of_locates {f : SourceFile} {r : LintResult}
    (h : ∀ v ∈ r.violations, f.Locates v) :
    r.sort.violations =
      r.violations.mergeSort fun v w => decide (v.location.offset ≤ w.location.offset) := by
  have hle : (fun v w : Violation => decide (v.location.offset ≤ w.location.offset)) =
      fun v w => (v.compareOffset w).isLE := by
    funext v w
    rw [Bool.eq_iff_iff, decide_eq_true_iff]
    exact Nat.isLE_compare.symm
  have hmem (v : Violation) :
      v ∈ r.violations.mergeSort (fun v w => (v.compareOffset w).isLE) ↔ v ∈ r.violations :=
    List.mem_mergeSort
  rw [hle]
  apply @mergeSort_eq_of_filter_eq _ Violation.compare
  · refine (inOrder_mergeSort r.violations).imp_of_mem ?_
    intro v w hv hw hvw
    rw [Violation.compare_eq_compareOffset (h v ((hmem v).mp hv)) (h w ((hmem w).mp hw))]
    exact hvw
  · intro a
    apply filter_mergeSort
    intro v hv w hw hav haw
    rw [beq_iff_eq] at hav haw
    rw [← Violation.compare_eq_compareOffset (h v hv) (h w hw)]
    exact Std.TransCmp.eq_trans (Std.OrientedCmp.eq_symm hav) haw

/-- Locations are faithful. Positions come in the order of offsets, and an offset can be found again from
its position. A byte that is not in the end of a line stands in the line whose number its location shows,
at the column shown; that line and the one before it decide about directives. Sorting the violations of
the file by line and column sorts them by offset. -/
theorem SourceFile.locations_faithful (f : SourceFile) :
    (∀ a b, a < b → b ≤ Text.byteLength f.content →
      (Text.position f.content a).Before (Text.position f.content b)) ∧
    (∀ a, a ≤ Text.byteLength f.content → (Text.position f.content a).offset f.content = a) ∧
    (∀ a stop byte, (Text.bytes f.content)[a]? = some byte → ¬ Text.InLineEnd f.content a →
      ∃ front line back, Text.IsLine f.content front line back ∧
        (Text.lines f.content)[(f.location ⟨a, stop⟩).line - 1]? = some line ∧
        a = Text.byteLength front + ((f.location ⟨a, stop⟩).column - 1) ∧
        (Text.bytes line)[(f.location ⟨a, stop⟩).column - 1]? = some byte ∧
        ∀ visited issue, Collector.isSuppressed f visited issue ⟨a, stop⟩ = true ↔
          Directive.Allows line issue ∨
          (∃ before, 1 < (f.location ⟨a, stop⟩).line ∧
            (Text.lines f.content)[(f.location ⟨a, stop⟩).line - 2]? = some before ∧
            Directive.Allows before issue) ∨
          ∃ node ∈ visited, f.tree.suppressed node issue = true) ∧
    ∀ r : LintResult, (∀ v ∈ r.violations, f.Locates v) →
      r.sort.violations =
        r.violations.mergeSort fun v w => decide (v.location.offset ≤ w.location.offset) := by
  refine ⟨fun a b => Text.position_before, fun a => Text.offset_position, ?_,
    fun r => LintResult.sort_eq_of_locates⟩
  intro a stop byte hbyte hend
  obtain ⟨front, line, back, hline, hnumber, hoffset, hcolumn⟩ := Text.exists_line hbyte hend
  refine ⟨front, line, back, hline, hnumber, hoffset, hcolumn, ?_⟩
  intro visited issue
  have hpos := Text.line_position_pos f.content a
  have hhere : (Directive.onLine? (Text.lines f.content) (Text.position f.content a).line issue).isSome =
      true ↔ Directive.Allows line issue := by
    rw [Directive.isSome_onLine?_iff, hnumber]
    simp [Nat.ne_of_gt hpos]
  have hbefore :
      (Directive.onLine? (Text.lines f.content) ((Text.position f.content a).line - 1) issue).isSome =
        true ↔ ∃ before, 1 < (Text.position f.content a).line ∧
          (Text.lines f.content)[(Text.position f.content a).line - 2]? = some before ∧
          Directive.Allows before issue := by
    rw [Directive.isSome_onLine?_iff]
    refine exists_congr fun before => and_congr_left fun _ => ?_
    omega
  have hlines := or_comm.trans (or_congr hhere hbefore)
  unfold Collector.isSuppressed
  rw [Bool.or_eq_true, isAllowed_allowanceAt_iff, hlines, or_assoc]
  refine or_congr_right (or_congr_right ?_)
  cases visited <;> simp

/-- A file with a letter of two bytes in its first line, which ends with a carriage return and a line
feed; the second line has no end. -/
def mixedEnds : SourceFile :=
  ⟨⟨"A.kt"⟩, Arena.empty.finishWithRoot "é\r\nok" "source_file", .unknown, []⟩

def violationAt (f : SourceFile) (span : Span) : Violation :=
  ⟨"", "", .warning, f.location span, "", none⟩

theorem SourceFile.locations_faithful_mixedEnds :
    Text.byteLength mixedEnds.content = 6 ∧
    (Text.position mixedEnds.content 1).Before (Text.position mixedEnds.content 5) ∧
    (Text.position mixedEnds.content 5).offset mixedEnds.content = 5 ∧
    (Text.bytes mixedEnds.content)[5]? = some 107 ∧ ¬ Text.InLineEnd mixedEnds.content 5 ∧
    mixedEnds.location ⟨5, 6⟩ = ⟨⟨"A.kt"⟩, 2, 2, 5, 1⟩ ∧
    (∃ front line back, Text.IsLine mixedEnds.content front line back ∧
      (Text.lines mixedEnds.content)[1]? = some line ∧ 5 = Text.byteLength front + 1 ∧
      (Text.bytes line)[1]? = some 107) ∧
    (LintResult.sort ⟨[violationAt mixedEnds ⟨5, 6⟩, violationAt mixedEnds ⟨1, 2⟩], 1⟩).violations =
      [violationAt mixedEnds ⟨5, 6⟩, violationAt mixedEnds ⟨1, 2⟩].mergeSort
        fun v w => decide (v.location.offset ≤ w.location.offset) := by
  have hlength : Text.byteLength mixedEnds.content = 6 := by decide
  have hbyte : (Text.bytes mixedEnds.content)[5]? = some 107 := by decide
  have hend : ¬ Text.InLineEnd mixedEnds.content 5 := by decide
  have hlocation : mixedEnds.location ⟨5, 6⟩ = ⟨⟨"A.kt"⟩, 2, 2, 5, 1⟩ := by decide
  obtain ⟨hbefore, hoffset, hline, hsort⟩ := SourceFile.locations_faithful mixedEnds
  obtain ⟨front, line, back, his, hnumber, hcolumn, hat, _⟩ := hline 5 6 107 hbyte hend
  rw [hlocation] at hnumber hcolumn hat
  refine ⟨hlength, hbefore 1 5 (by decide) (by rw [hlength]; decide), hoffset 5 (by rw [hlength]; decide),
    hbyte, hend, hlocation, ⟨front, line, back, his, hnumber, hcolumn, hat⟩, hsort _ ?_⟩
  intro v hv
  simp only [List.mem_cons, List.not_mem_nil, or_false] at hv
  rcases hv with rfl | rfl
  · exact ⟨⟨5, 6⟩, by rw [hlength]; decide, rfl⟩
  · exact ⟨⟨1, 2⟩, by rw [hlength]; decide, rfl⟩

end CoroutineCheck

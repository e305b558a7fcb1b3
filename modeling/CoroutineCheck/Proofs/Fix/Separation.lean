import CoroutineCheck.Fix.Basic
import CoroutineCheck.Proofs.Text.Cuts
/-!
# Separated edits

An edit that is not rejected on its own has its span in order and on character boundaries. Edits
without conflicts, put in order of their starts, leave a gap or touch; so the single pass over the
source never goes backwards, and it gives the text that performing the edits one after the other
gives when the last one comes first.
-/
namespace CoroutineCheck

namespace Span

structure OnSource (source : List Char) (s : Span) : Prop where
  ordered : s.start ≤ s.stop
  start_boundary : Text.isBoundary source s.start = true
  stop_boundary : Text.isBoundary source s.stop = true

theorem conflicts_comm (a b : Span) : a.conflicts b = b.conflicts a := by
  unfold conflicts overlaps
  rw [Bool.and_comm, Bool.beq_comm]

private theorem before_trans (a b c : Span) (hab : a.before b = true) (hbc : b.before c = true) :
    a.before c = true := by
  simp only [before, Bool.or_eq_true, Bool.and_eq_true, decide_eq_true_eq, beq_iff_eq] at *
  omega

private theorem before_total (a b : Span) : (a.before b || b.before a) = true := by
  simp only [before, Bool.or_eq_true, Bool.and_eq_true, decide_eq_true_eq, beq_iff_eq]
  omega

/-- The first span ends before the second begins, and they do not begin together. -/
def Ahead (a b : Span) : Prop := a.stop ≤ b.start ∧ a.start < b.start

theorem Ahead.trans {a b c : Span} (hab : a.Ahead b) (hbc : b.Ahead c) : a.Ahead c := by
  unfold Ahead at *
  omega

private theorem ahead_of_not_conflicts {a b : Span} (hb : b.start ≤ b.stop) (h : a.before b = true)
    (hc : a.conflicts b = false) : a.Ahead b := by
  simp only [before, Bool.or_eq_true, Bool.and_eq_true, decide_eq_true_eq, beq_iff_eq] at h
  simp only [conflicts, overlaps, Bool.or_eq_false_iff, Bool.and_eq_false_iff,
    decide_eq_false_iff_not, beq_eq_false_iff_ne] at hc
  unfold Ahead
  omega

private theorem Ahead.not_conflicts {a b : Span} (h : a.Ahead b) : a.conflicts b = false := by
  unfold Ahead at h
  simp only [conflicts, overlaps, Bool.or_eq_false_iff, Bool.and_eq_false_iff,
    decide_eq_false_iff_not, beq_eq_false_iff_ne]
  omega

end Span

namespace Edit

/-- Two edits that can both be performed. -/
def Clear (d e : Edit) : Prop := d.span.conflicts e.span = false

theorem Clear.symm {d e : Edit} (h : d.Clear e) : e.Clear d := by
  unfold Clear at *
  rw [Span.conflicts_comm]
  exact h

theorem rejection?_eq_none_iff {source : List Char} {e : Edit} :
    e.rejection? source = none ↔ e.span.OnSource source := by
  unfold rejection?
  constructor
  · intro h
    split at h
    · cases h
    case isFalse hr =>
      simp only [Bool.or_eq_true, decide_eq_true_eq, not_or] at hr
      split at h
      case isTrue hb =>
        rw [Bool.and_eq_true] at hb
        exact ⟨by omega, hb.1, hb.2⟩
      · cases h
  · intro h
    have hle := Text.isBoundary_le h.stop_boundary
    have hord := h.ordered
    rw [if_neg (by simp only [Bool.or_eq_true, decide_eq_true_eq]; omega),
      h.start_boundary, h.stop_boundary]
    rfl

theorem sort_perm (edits : List Edit) : (sort edits).Perm edits :=
  List.mergeSort_perm edits _

private theorem sort_before (edits : List Edit) :
    (sort edits).Pairwise fun d e => d.span.before e.span = true :=
  List.pairwise_mergeSort (fun a b c => Span.before_trans a.span b.span c.span)
    (fun a b => Span.before_total a.span b.span) edits

/-- Conflicts among neighbours are the only ones to look for: in the order of replacement, edits
without conflicting neighbours are all ahead of one another. -/
private theorem pairwise_ahead_of_neighbours {es : List Edit} (hs : ∀ e ∈ es, e.span.start ≤ e.span.stop)
    (hsort : es.Pairwise fun d e => d.span.before e.span = true) (hn : neighbourClash? es = none) :
    es.Pairwise fun d e => d.span.Ahead e.span := by
  induction es with
  | nil => exact .nil
  | cons a es ih =>
    cases es with
    | nil => exact List.pairwise_singleton _ a
    | cons b rest =>
      rw [neighbourClash?] at hn
      split at hn
      · cases hn
      case isFalse hab =>
        have hfirst : a.span.Ahead b.span :=
          Span.ahead_of_not_conflicts (hs b (by simp)) (List.rel_of_pairwise_cons hsort (by simp))
            (Bool.not_eq_true _ ▸ hab)
        have hrest := ih (fun e he => hs e (List.mem_cons_of_mem a he)) hsort.of_cons hn
        refine List.pairwise_cons.mpr ⟨?_, hrest⟩
        intro e he
        rcases List.mem_cons.mp he with rfl | he
        · exact hfirst
        · exact hfirst.trans (List.rel_of_pairwise_cons hrest he)

private theorem neighbourClash?_of_pairwise {es : List Edit} (h : es.Pairwise Clear) :
    neighbourClash? es = none := by
  induction es with
  | nil => rfl
  | cons a es ih =>
    cases es with
    | nil => rfl
    | cons b rest =>
      have hab : a.Clear b := List.rel_of_pairwise_cons h (by simp)
      rw [neighbourClash?, if_neg (by rw [show a.span.conflicts b.span = false from hab]; simp)]
      exact ih h.of_cons

theorem sort_ahead {edits : List Edit} (hs : ∀ e ∈ edits, e.span.start ≤ e.span.stop)
    (hc : edits.Pairwise Clear) : (sort edits).Pairwise fun d e => d.span.Ahead e.span := by
  have hp := sort_perm edits
  apply pairwise_ahead_of_neighbours _ (sort_before edits)
  · apply neighbourClash?_of_pairwise
    exact hp.symm.pairwise hc fun h => h.symm
  · intro e he
    exact hs e (hp.mem_iff.mp he)

end Edit

theorem Fix.rejection?_eq_none_iff {source : List Char} {f : Fix} :
    f.rejection? source = none ↔
      (∀ e ∈ f.edits, e.span.OnSource source) ∧ f.edits.Pairwise Edit.Clear := by
  unfold rejection?
  constructor
  · intro h
    split at h
    · cases h
    case h_2 hnone =>
      rw [List.findSome?_eq_none_iff] at hnone
      have hon : ∀ e ∈ f.edits, e.span.OnSource source := fun e he =>
        Edit.rejection?_eq_none_iff.mp (hnone e he)
      refine ⟨hon, ?_⟩
      have hp := Edit.sort_perm f.edits
      have hahead := Edit.pairwise_ahead_of_neighbours
        (fun e he => (hon e (hp.mem_iff.mp he)).ordered) (Edit.sort_before f.edits) h
      exact hp.pairwise (hahead.imp fun h => h.not_conflicts) fun h => h.symm
  · rintro ⟨hon, hc⟩
    rw [List.findSome?_eq_none_iff.mpr fun e he => Edit.rejection?_eq_none_iff.mpr (hon e he)]
    apply Edit.neighbourClash?_of_pairwise
    exact (Edit.sort_perm f.edits).symm.pairwise hc fun h => h.symm

theorem Fix.validate_eq_ok_iff {source : String} {f : Fix} :
    f.validate source = .ok () ↔ f.rejection? source.toList = none := by
  unfold validate
  split <;> simp_all

namespace Edit

def perform? (text : List Char) (e : Edit) : Option (List Char) :=
  if e.span.start ≤ e.span.stop then do
    let front ← Text.takeBytes? text e.span.start
    let back ← Text.dropBytes? text e.span.stop
    return front ++ e.replacement.toList ++ back
  else none

private theorem perform?_append {front old back : List Char} {e : Edit}
    (hstart : Text.byteLength front = e.span.start)
    (hstop : Text.byteLength front + Text.byteLength old = e.span.stop) :
    e.perform? (front ++ (old ++ back)) = some (front ++ e.replacement.toList ++ back) := by
  have htake := Text.takeBytes?_append front (old ++ back)
  have hdrop := Text.dropBytes?_append (front ++ old) back
  rw [Text.byteLength_append, hstop, List.append_assoc] at hdrop
  rw [hstart] at htake
  rw [perform?, if_pos (by omega), htake, hdrop]
  rfl

private theorem spliceFrom?_isSome {source : List Char} {cursor : Nat} {es : List Edit}
    (hb : Text.isBoundary source cursor = true) (hon : ∀ e ∈ es, e.span.OnSource source)
    (hcur : ∀ e ∈ es, cursor ≤ e.span.start) (h : es.Pairwise fun d e => d.span.Ahead e.span) :
    ∃ out, spliceFrom? source cursor es = some out := by
  induction es generalizing cursor with
  | nil =>
    rw [spliceFrom?]
    exact Option.isSome_iff_exists.mp hb
  | cons e es ih =>
    have he := hon e (by simp)
    obtain ⟨kept, hkept⟩ := Text.slice?_isSome (hcur e (by simp)) hb he.start_boundary
    obtain ⟨tail, htail⟩ := ih he.stop_boundary (fun d hd => hon d (List.mem_cons_of_mem e hd))
      (fun d hd => (List.rel_of_pairwise_cons h hd).1) h.of_cons
    exact ⟨kept ++ e.replacement.toList ++ tail, by rw [spliceFrom?, hkept, htail]; rfl⟩

/-- One pass from a boundary on gives what performing the same edits one at a time, the last one
first, makes of the source behind that boundary. -/
theorem perform_reverse_of_spliceFrom? {source front out : List Char} {cursor : Nat}
    {es : List Edit} (hf : Text.takeBytes? source cursor = some front)
    (hon : ∀ e ∈ es, e.span.OnSource source) (hs : spliceFrom? source cursor es = some out) :
    es.reverse.foldlM perform? source = some (front ++ out) := by
  induction es generalizing cursor front out with
  | nil =>
    obtain ⟨rest, rfl, rfl⟩ := Text.takeBytes?_eq_some_iff.mp hf
    rw [spliceFrom?, Text.dropBytes?_append] at hs
    cases hs
    rfl
  | cons e es ih =>
    rw [spliceFrom?] at hs
    obtain ⟨kept, hkept, hs⟩ := Option.bind_eq_some_iff.mp hs
    obtain ⟨tail, htail, hs⟩ := Option.bind_eq_some_iff.mp hs
    cases hs
    obtain ⟨a, b, hsource, ha, hkeptLen⟩ := Text.slice?_eq_some_iff.mp hkept
    obtain ⟨rest, hsource', hfront⟩ := Text.takeBytes?_eq_some_iff.mp hf
    obtain ⟨rfl, hrest⟩ : a = front ∧ kept ++ b = rest := by
      obtain ⟨mid, hmid, hmid'⟩ := Text.front_of_le (hsource.symm.trans hsource') (by omega)
      have hnil : mid = [] := Text.byteLength_eq_zero (by
        have := congrArg Text.byteLength hmid
        rw [Text.byteLength_append] at this
        omega)
      subst hnil
      exact ⟨by simpa using hmid.symm, by simpa using hmid'⟩
    -- The source up to the end of this edit's span is `a ++ kept ++ old`.
    obtain ⟨old, hold⟩ : ∃ old, Text.takeBytes? source e.span.stop = some (a ++ kept ++ old) ∧
        e.span.start + Text.byteLength old = e.span.stop := by
      have he := hon e (by simp)
      obtain ⟨c, d, hcd, hc⟩ := Text.isBoundary_iff.mp he.stop_boundary
      have hlen : Text.byteLength (a ++ kept) = e.span.start := by
        rw [Text.byteLength_append]
        omega
      have hle := he.ordered
      obtain ⟨old, rfl, _⟩ := Text.front_of_le
        ((by rw [List.append_assoc]; exact hsource.symm : a ++ kept ++ b = source).trans hcd)
        (by omega)
      rw [Text.byteLength_append] at hc
      exact ⟨old, Text.takeBytes?_eq_some_iff.mpr ⟨d, hcd, by rw [Text.byteLength_append]; omega⟩,
        by omega⟩
    have htailRun := ih hold.1 (fun d hd => hon d (List.mem_cons_of_mem e hd)) htail
    rw [List.reverse_cons, List.foldlM_append, htailRun, List.append_assoc (a ++ kept)]
    change ([e] : List Edit).foldlM perform? _ = _
    rw [List.foldlM_cons, perform?_append (by rw [Text.byteLength_append]; omega)
      (by rw [Text.byteLength_append]; omega)]
    simp only [List.append_assoc]
    rfl

/-- Edits without conflicts can be spliced, and the result is that of performing them one at a time
in decreasing order of their starts. -/
theorem splice?_eq_perform {source : List Char} {edits : List Edit}
    (hon : ∀ e ∈ edits, e.span.OnSource source) (hc : edits.Pairwise Clear) :
    ∃ out, splice? source edits = some out ∧
      ∀ order : List Edit, order.Perm edits →
        order.Pairwise (fun d e => e.span.start < d.span.start) →
          order.foldlM perform? source = some out := by
  have hp := sort_perm edits
  have hons : ∀ e ∈ sort edits, e.span.OnSource source := fun e he => hon e (hp.mem_iff.mp he)
  have hahead := sort_ahead (fun e he => (hon e he).ordered) hc
  obtain ⟨out, hout⟩ : ∃ out, spliceFrom? source 0 (sort edits) = some out :=
    spliceFrom?_isSome (Text.isBoundary_iff.mpr ⟨[], source, rfl, rfl⟩) hons
      (fun _ _ => Nat.zero_le _) hahead
  refine ⟨out, hout, ?_⟩
  intro order hperm hdec
  have horder : order = (sort edits).reverse := by
    have hrev : (sort edits).reverse.Pairwise fun d e => e.span.start < d.span.start :=
      List.pairwise_reverse.mpr (hahead.imp fun h => h.2)
    refine List.Perm.eq_of_pairwise ?_ hdec hrev
      (hperm.trans (hp.symm.trans (List.reverse_perm _).symm))
    intro d e _ _ hde hed
    omega
  rw [horder]
  exact perform_reverse_of_spliceFrom? (Text.takeBytes?_zero source) hons hout

end Edit
end CoroutineCheck

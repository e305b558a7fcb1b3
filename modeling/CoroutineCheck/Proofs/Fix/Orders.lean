import CoroutineCheck.Proofs.Fix.Batch
/-!
# The order of edits and of fixes

Edits without conflicts begin at different places, so they are replaced in one order, however they are
listed. A fix then gives the same text for every order of its edits. A batch of compatible fixes gives
the same text for every order of the fixes, and it is the text of one fix with all their edits.
-/
namespace CoroutineCheck

namespace Edit

variable {edits listed : List Edit}

private theorem sort_eq_of_perm (hp : listed.Perm edits) (hs : ∀ e ∈ edits, e.span.start ≤ e.span.stop)
    (hc : edits.Pairwise Clear) : sort listed = sort edits := by
  have hs' : ∀ e ∈ listed, e.span.start ≤ e.span.stop := fun e he => hs e (hp.mem_iff.mp he)
  have hc' : listed.Pairwise Clear := hp.symm.pairwise hc fun h => h.symm
  apply List.Perm.eq_of_pairwise ?_ (sort_ahead hs' hc') (sort_ahead hs hc)
    ((sort_perm listed).trans (hp.trans (sort_perm edits).symm))
  intro d e _ _ hde hed
  have hstart : d.span.start < e.span.start := hde.2
  have hstart' : e.span.start < d.span.start := hed.2
  omega

private theorem splice?_eq_of_perm (source : List Char) (hp : listed.Perm edits)
    (hs : ∀ e ∈ edits, e.span.start ≤ e.span.stop) (hc : edits.Pairwise Clear) :
    splice? source listed = splice? source edits := by
  rw [splice?, splice?, sort_eq_of_perm hp hs hc]

private theorem pairwise_clear_iff : edits.Pairwise Clear ↔
    ∀ (i j : Nat) (d e : Edit), i ≠ j → edits[i]? = some d → edits[j]? = some e →
      d.span.conflicts e.span = false := by
  rw [List.pairwise_iff_getElem]
  constructor
  · intro h i j d e hij hd he
    obtain ⟨hi, rfl⟩ := List.getElem?_eq_some_iff.mp hd
    obtain ⟨hj, rfl⟩ := List.getElem?_eq_some_iff.mp he
    rcases Nat.lt_or_gt_of_ne hij with hlt | hlt
    · exact h i j hi hj hlt
    · exact (h j i hj hi hlt).symm
  · intro h i j hi hj hij
    exact h i j edits[i] edits[j] (by omega) (List.getElem?_eq_getElem hi) (List.getElem?_eq_getElem hj)

end Edit

private theorem Span.onSource_iff {source : String} {s : Span} : s.OnSource source.toList ↔
    s.start ≤ s.stop ∧ s.stop ≤ source.utf8ByteSize ∧
      String.Pos.Raw.IsValid source ⟨s.start⟩ ∧ String.Pos.Raw.IsValid source ⟨s.stop⟩ := by
  rw [← Text.isBoundary_iff_isValid, ← Text.isBoundary_iff_isValid]
  constructor
  · intro h
    have hle := Text.isBoundary_le h.stop_boundary
    rw [Text.byteLength_toList] at hle
    exact ⟨h.ordered, hle, h.start_boundary, h.stop_boundary⟩
  · intro h
    exact ⟨h.1, h.2.2.1, h.2.2.2⟩

namespace Fix

variable {source text : String} {f g : Fix}

private theorem apply_eq_ok_iff : f.apply source = .ok text ↔
    (∀ e ∈ f.edits, e.span.OnSource source.toList) ∧ f.edits.Pairwise Edit.Clear ∧
      Edit.splice? source.toList f.edits = some text.toList := by
  rw [← and_assoc, ← rejection?_eq_none_iff, apply]
  cases hr : f.rejection? source.toList with
  | some r => simp
  | none =>
    obtain ⟨hon, hc⟩ := rejection?_eq_none_iff.mp hr
    obtain ⟨out, hout, _⟩ := Edit.splice?_eq_perform hon hc
    simp only [hout, Option.getD_some, Except.ok.injEq, Option.some.injEq, true_and]
    exact ⟨fun h => by rw [← h, String.toList_ofList], fun h => by rw [h, String.ofList_toList]⟩

private theorem exists_apply_eq_ok_iff : (∃ text, f.apply source = .ok text) ↔
    (∀ e ∈ f.edits, e.span.OnSource source.toList) ∧ f.edits.Pairwise Edit.Clear := by
  constructor
  · rintro ⟨text, h⟩
    have hparts := apply_eq_ok_iff.mp h
    exact ⟨hparts.1, hparts.2.1⟩
  · rintro ⟨hon, hc⟩
    obtain ⟨out, hout, _⟩ := Edit.splice?_eq_perform hon hc
    exact ⟨String.ofList out, apply_eq_ok_iff.mpr ⟨hon, hc, by rw [hout, String.toList_ofList]⟩⟩

private theorem apply_eq_ok_of_perm (hp : g.edits.Perm f.edits) (h : f.apply source = .ok text) :
    g.apply source = .ok text := by
  obtain ⟨hon, hc, hsplice⟩ := apply_eq_ok_iff.mp h
  refine apply_eq_ok_iff.mpr ⟨fun e he => hon e (hp.mem_iff.mp he), ?_, ?_⟩
  · exact hp.symm.pairwise hc fun h => h.symm
  · rw [Edit.splice?_eq_of_perm source.toList hp (fun e he => (hon e he).ordered) hc, hsplice]

private theorem perform_of_apply (h : f.apply source = .ok text) {order : List Edit}
    (hp : order.Perm f.edits) (hdec : order.Pairwise fun d e => e.span.start < d.span.start) :
    order.foldlM Edit.perform? source.toList = some text.toList := by
  obtain ⟨hon, hc, hsplice⟩ := apply_eq_ok_iff.mp h
  obtain ⟨out, hout, hperform⟩ := Edit.splice?_eq_perform hon hc
  rw [hsplice] at hout
  exact (hperform order hp hdec).trans hout.symm

/-- A fix can be applied exactly if every edit replaces a piece of the source and no two edits
conflict, neighbours or not. It then gives the text that performing the edits one at a time gives, from
the last place in the source to the first, and so does every fix with the same edits in another order. -/
theorem apply_exact (source : String) (f : Fix) :
    ((∃ text, f.apply source = .ok text) ↔
      (∀ e ∈ f.edits, e.span.start ≤ e.span.stop ∧ e.span.stop ≤ source.utf8ByteSize ∧
        String.Pos.Raw.IsValid source ⟨e.span.start⟩ ∧ String.Pos.Raw.IsValid source ⟨e.span.stop⟩) ∧
      ∀ (i j : Nat) (d e : Edit), i ≠ j → f.edits[i]? = some d → f.edits[j]? = some e →
        d.span.conflicts e.span = false) ∧
    (∀ text, f.apply source = .ok text →
      ∃ order : List Edit, order.Perm f.edits ∧
        order.Pairwise (fun d e => e.span.start < d.span.start) ∧
        order.foldlM Edit.perform? source.toList = some text.toList) ∧
    ∀ g : Fix, g.edits.Perm f.edits → ∀ text, g.apply source = .ok text ↔ f.apply source = .ok text := by
  refine ⟨?_, ?_, ?_⟩
  · rw [exists_apply_eq_ok_iff, Edit.pairwise_clear_iff]
    simp only [Span.onSource_iff]
  · intro text h
    obtain ⟨hon, hc, _⟩ := apply_eq_ok_iff.mp h
    have hperm : (Edit.sort f.edits).reverse.Perm f.edits :=
      (List.reverse_perm _).trans (Edit.sort_perm f.edits)
    have hdec : (Edit.sort f.edits).reverse.Pairwise fun d e => e.span.start < d.span.start :=
      List.pairwise_reverse.mpr
        ((Edit.sort_ahead (fun e he => (hon e he).ordered) hc).imp fun h => h.2)
    exact ⟨_, hperm, hdec, perform_of_apply h hperm hdec⟩
  · intro g hp text
    exact ⟨apply_eq_ok_of_perm hp.symm, apply_eq_ok_of_perm hp⟩

/-- No edit of one fix conflicts with an edit of the other. -/
def Compatible (f g : Fix) : Prop :=
  ∀ d ∈ f.edits, ∀ e ∈ g.edits, d.span.conflicts e.span = false

instance (f g : Fix) : Decidable (f.Compatible g) :=
  inferInstanceAs (Decidable (∀ d ∈ f.edits, ∀ e ∈ g.edits, d.span.conflicts e.span = false))

theorem Compatible.symm (h : f.Compatible g) : g.Compatible f := by
  intro e he d hd
  rw [Span.conflicts_comm]
  exact h d hd e he

/-- Triage accepts fixes that are valid and compatible with each other and with what was accepted
before. -/
theorem triage_of_compatible {source : List Char} {fixes : List Fix}
    (hvalid : ∀ f ∈ fixes, f.rejection? source = none) (hfixes : fixes.Pairwise Compatible)
    (i : Nat) (accepted : List Edit)
    (haccepted : ∀ f ∈ fixes, ∀ d ∈ accepted, ∀ e ∈ f.edits, d.span.conflicts e.span = false) :
    triage source i accepted fixes =
      ⟨accepted ++ fixes.flatMap edits, List.range' i fixes.length, []⟩ := by
  induction fixes generalizing i accepted with
  | nil => simp [triage]
  | cons f fs ih =>
    have hrest := List.pairwise_cons.mp hfixes
    have hnone : f.skipReason? source accepted = none := by
      by_contra hne
      rcases skipReason?_ne_none_iff.mp hne with hr | ⟨d, hd, e, he, hc⟩
      · exact hr (hvalid f (by simp))
      · rw [haccepted f (by simp) d hd e he] at hc
        cases hc
    -- What comes after is compatible with the edits of `f` too.
    have hnext := ih (fun g hg => hvalid g (by simp [hg])) hrest.2 (i + 1) (accepted ++ f.edits) (by
      intro g hg d hd e he
      rcases List.mem_append.mp hd with hd | hd
      · exact haccepted g (by simp [hg]) d hd e he
      · exact hrest.1 g hg d hd e he)
    simp only [triage, hnone, hnext, List.flatMap_cons, List.append_assoc, List.length_cons,
      List.range'_succ]

/-- A batch of valid and compatible fixes is applied in full whatever the order of the fixes, with the
text that one fix with all their edits gives. -/
theorem applyAll_of_compatible {source : String} {fixes : List Fix}
    (hvalid : ∀ f ∈ fixes, f.validate source = .ok ()) (hfixes : fixes.Pairwise Compatible) :
    ∃ text,
      (∀ order : List Fix, order.Perm fixes →
        applyAll source order = ⟨text, List.range fixes.length, []⟩) ∧
      ∀ whole : Fix, whole.edits.Perm (fixes.flatMap edits) → whole.apply source = .ok text := by
  have hrejection : ∀ f ∈ fixes, f.rejection? source.toList = none := fun f hf =>
    validate_eq_ok_iff.mp (hvalid f hf)
  have hon : ∀ e ∈ fixes.flatMap edits, e.span.OnSource source.toList := by
    intro e he
    obtain ⟨f, hf, he⟩ := List.mem_flatMap.mp he
    exact (rejection?_eq_none_iff.mp (hrejection f hf)).1 e he
  have hclear : (fixes.flatMap edits).Pairwise Edit.Clear :=
    List.pairwise_flatMap.mpr
      ⟨fun f hf => (rejection?_eq_none_iff.mp (hrejection f hf)).2, hfixes⟩
  obtain ⟨out, hout, _⟩ := Edit.splice?_eq_perform hon hclear
  refine ⟨String.ofList out, ?_, ?_⟩
  · intro order hp
    have htriage := triage_of_compatible (fun f hf => hrejection f (hp.mem_iff.mp hf))
      (hp.symm.pairwise hfixes fun h => h.symm) 0 [] (by simp)
    have hsplice : Edit.splice? source.toList (order.flatMap edits) = some out := by
      rw [Edit.splice?_eq_of_perm source.toList (hp.flatMap_right edits)
        (fun e he => (hon e he).ordered) hclear, hout]
    rw [applyAll, htriage, List.nil_append, hsplice, hp.length_eq, List.range_eq_range']
    rfl
  · intro whole hp
    have hall : (⟨whole.name, fixes.flatMap edits⟩ : Fix).apply source = .ok (String.ofList out) :=
      apply_eq_ok_iff.mpr ⟨hon, hclear, by rw [hout, String.toList_ofList]⟩
    exact apply_eq_ok_of_perm hp hall

def sum : String := "a + é + c"

def outerTerms : Fix := ⟨"outer", [⟨⟨9, 10⟩, "z"⟩, ⟨⟨0, 1⟩, "x"⟩]⟩

def innerTerm : Fix := ⟨"inner", [⟨⟨4, 6⟩, "y"⟩]⟩

def mark : Fix := ⟨"mark", [⟨⟨10, 10⟩, "!"⟩]⟩

def sumEdits : List Edit :=
  [⟨⟨10, 10⟩, "!"⟩, ⟨⟨9, 10⟩, "z"⟩, ⟨⟨4, 6⟩, "y"⟩, ⟨⟨0, 1⟩, "x"⟩]

theorem applyAll_of_compatible_sum :
    (∀ f ∈ [outerTerms, innerTerm, mark], f.validate sum = .ok ()) ∧
    [outerTerms, innerTerm, mark].Pairwise Compatible ∧
    applyAll sum [mark, outerTerms, innerTerm] = ⟨"x + y + z!", [0, 1, 2], []⟩ ∧
    applyAll sum [innerTerm, mark, outerTerms] = ⟨"x + y + z!", [0, 1, 2], []⟩ := by
  have hvalid : ∀ f ∈ [outerTerms, innerTerm, mark], f.validate sum = .ok () := by
    have hspans : ∀ f ∈ [outerTerms, innerTerm, mark], (∀ e ∈ f.edits,
        e.span.start ≤ e.span.stop ∧ Text.isBoundary sum.toList e.span.start = true ∧
          Text.isBoundary sum.toList e.span.stop = true) ∧
        f.edits.Pairwise fun d e => d.span.conflicts e.span = false := by decide +kernel
    intro f hf
    apply validate_eq_ok_iff.mpr (rejection?_eq_none_iff.mpr ⟨?_, (hspans f hf).2⟩)
    intro e he
    obtain ⟨hordered, hstart, hstop⟩ := (hspans f hf).1 e he
    exact ⟨hordered, hstart, hstop⟩
  have hcompatible : [outerTerms, innerTerm, mark].Pairwise Compatible := by decide
  obtain ⟨text, hbatch, hwhole⟩ := applyAll_of_compatible hvalid hcompatible
  have hall := hwhole ⟨"all", [outerTerms, innerTerm, mark].flatMap edits⟩ (.refl _)
  have hperform := perform_of_apply hall (show sumEdits.Perm _ by decide) (by decide)
  have heval : sumEdits.foldlM Edit.perform? sum.toList = some "x + y + z!".toList := by
    decide +kernel
  obtain rfl : text = "x + y + z!" :=
    String.toList_injective (Option.some.inj (hperform.symm.trans heval))
  exact ⟨hvalid, hcompatible, hbatch _ (by decide), hbatch _ (by decide)⟩

end Fix
end CoroutineCheck

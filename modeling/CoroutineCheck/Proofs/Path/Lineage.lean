import CoroutineCheck.Proofs.Path.Components
import Mathlib.Data.List.Infix
/-!
# Above and below a path

Names put below an absolute path are what the result is as seen from there. Above a path that names make,
be it from the file system root, from `.` or from nothing, stand the paths that fewer of the names make.
-/
namespace CoroutineCheck.Path

variable {p : Path} {name : String} {names : List String}

private theorem toList_ofNames (names : List String) :
    (ofNames names).text.toList = ['/'].intercalate (names.map String.toList) := by
  rw [ofNames, String.toList_intercalate]
  rfl

theorem isAbsolute_ofNames (h : ∀ n ∈ names, isName n = true) :
    (ofNames names).isAbsolute = false := by
  cases names with
  | nil => rfl
  | cons n names =>
    have hn := h n (by simp)
    have hhead : (ofNames (n :: names)).text.toList.head? = n.toList.head? := by
      cases hchars : n.toList with
      | nil => exact absurd hchars (toList_ne_nil_of_isName hn)
      | cons c cs =>
        rw [toList_ofNames, List.map_cons, hchars]
        cases names <;> rfl
    rw [isAbsolute, hhead]
    exact isAbsolute_of_isName hn

theorem join_ofNames (h : ∀ n ∈ names, isName n = true) (hne : names ≠ []) :
    p.join (ofNames names) = p.down names := by
  apply eq_of_toList
  rw [toList_join (isAbsolute_ofNames h), toList_down h hne]

theorem down_empty (h : ∀ n ∈ names, isName n = true) (hne : names ≠ []) :
    Path.down ⟨""⟩ names = ofNames names := by
  apply eq_of_toList
  rw [toList_down h hne]
  rfl

section Relative

private theorem dropComponents_append (xs ys : List (List Char)) :
    dropComponents (spoken xs).length (xs ++ ys) = dropComponents 0 ys := by
  induction xs with
  | nil => rfl
  | cons x xs ih =>
    by_cases hx : silent x = true
    · have hspoken : spoken (x :: xs) = spoken xs := by simp [spoken, hx]
      rw [hspoken, List.cons_append, ← ih, dropComponents.eq_def]
      simp only [hx, if_true]
    · have hspoken : (spoken (x :: xs)).length = (spoken xs).length + 1 := by simp [spoken, hx]
      rw [hspoken, List.cons_append, dropComponents, if_neg hx]
      exact ih

private theorem dropComponents_names (h : ∀ n ∈ names, isName n = true) :
    dropComponents 0 (names.map String.toList) = names.map String.toList := by
  cases names with
  | nil => rfl
  | cons n names =>
    have hn := not_silent_of_isName (h n (by simp))
    simp [dropComponents, hn]

private theorem trimSegments_append (h : isName name = true) (xs : List (List Char)) :
    trimSegments (xs ++ [name.toList]) = xs ++ [name.toList] := by
  simp [trimSegments, not_silent_of_isName h]

private theorem spoken_trimSegments (xs : List (List Char)) : spoken (trimSegments xs) = spoken xs := by
  induction xs using List.reverseRecOn with
  | nil => rfl
  | append_singleton xs x ih =>
    by_cases hx : silent x = true
    · have htrim : trimSegments (xs ++ [x]) = trimSegments xs := by simp [trimSegments, hx]
      have hspoken : spoken [x] = [] := by simp [spoken, hx]
      rw [htrim, ih, spoken_append, hspoken, List.append_nil]
    · have htrim : trimSegments (xs ++ [x]) = xs ++ [x] := by simp [trimSegments, hx]
      rw [htrim]

private theorem written_of_pieces {segments : List (List Char)}
    (h : Text.pieces '/' p.text.toList = [] :: segments) (hne : segments ≠ []) :
    p.written = ⟨true, false, segments⟩ := by
  cases segments with
  | nil => exact absurd rfl hne
  | cons s segments =>
    unfold written
    rw [h]

theorem head?_front_eq_nil_iff (p : Path) : p.front.head? = some [] ↔ p.isAbsolute = true := by
  cases hchars : p.text.toList with
  | nil =>
    have hp : p = ⟨""⟩ := eq_of_toList hchars
    rw [hp]
    decide
  | cons c cs =>
    obtain ⟨tail, hpieces⟩ : ∃ tail, Text.pieces '/' (c :: cs) = p.front ++ tail := by
      rcases pieces_eq_front p with ⟨_, h⟩ | h
      · exact ⟨[], by rw [← hchars, h, List.append_nil]⟩
      · exact ⟨[[]], by rw [← hchars, h]⟩
    have hne : p.front ≠ [] := front_ne_nil (by simp [hchars])
    obtain ⟨piece, rest, hfront⟩ := List.exists_cons_of_ne_nil hne
    rw [hfront, List.cons_append] at hpieces
    rw [hfront, List.head?_cons, Option.some_inj, isAbsolute, hchars, List.head?_cons, beq_iff_eq,
      Option.some_inj]
    constructor
    · rintro rfl
      exact Text.eq_sep_of_pieces hpieces
    · rintro rfl
      rw [Text.pieces, if_pos rfl] at hpieces
      exact (List.cons.inj hpieces).1.symm

private theorem ofSegment_injective : Function.Injective Component.ofSegment := by
  intro s t h
  unfold Component.ofSegment at h
  split at h <;> split at h
  · simp_all
  · cases h
  · cases h
  · exact String.ofList_injective (Component.name.inj h)

private theorem filter_components (p : Path) :
    p.components.filter (2 ≤ ·.rank) = spoken p.front := by
  have hlead : (lead p.front).filter (2 ≤ ·.rank) = [] := by
    unfold lead
    split
    · rfl
    · split <;> rfl
  have hspoken : (spoken p.front).filter (2 ≤ ·.rank) = spoken p.front := by
    rw [List.filter_eq_self]
    intro c hc
    obtain ⟨s, _, rfl⟩ := List.mem_map.mp hc
    unfold Component.ofSegment
    split <;> rfl
  rw [components_eq, List.filter_append, hlead, hspoken, List.nil_append]

private theorem lead_eq_root_iff (p : Path) : lead p.front = [.root] ↔ p.isAbsolute = true := by
  rw [← head?_front_eq_nil_iff]
  unfold lead
  split
  · simp_all
  · split <;> simp_all

/-- Paths with the same components start alike and have the same segments, up to those that stand for no
component. -/
theorem front_eq_of_components_eq {q : Path} (h : p.components = q.components) :
    p.isAbsolute = q.isAbsolute ∧
      p.front.filter (!silent ·) = q.front.filter (!silent ·) := by
  have hspoken : spoken p.front = spoken q.front := by
    rw [← filter_components, ← filter_components, h]
  have hlead : lead p.front = lead q.front := by
    rw [components_eq, components_eq, hspoken] at h
    exact List.append_cancel_right h
  refine ⟨?_, List.map_injective_iff.mpr ofSegment_injective hspoken⟩
  rw [Bool.eq_iff_iff, ← lead_eq_root_iff, ← lead_eq_root_iff, hlead]

theorem isAbsolute_down (h : ∀ n ∈ names, isName n = true) :
    (p.down names).isAbsolute = p.isAbsolute := by
  rw [Bool.eq_iff_iff, ← head?_front_eq_nil_iff, ← head?_front_eq_nil_iff, front_down h]
  cases hfront : p.front with
  | nil =>
    cases names with
    | nil => rfl
    | cons n names => simp [toList_ne_nil_of_isName (h n (by simp))]
  | cons piece rest => rfl

theorem join_down {q : Path} (hq : q.isAbsolute = false) (hne : q.text.toList ≠ [])
    (h : ∀ n ∈ names, isName n = true) : p.join (q.down names) = (p.join q).down names := by
  by_cases hnames : names = []
  · rw [hnames]
    rfl
  · apply eq_of_toList
    rw [toList_join ((isAbsolute_down h).trans hq), toList_down h hnames, toList_down h hnames,
      stem_join hq hne, List.append_assoc]

private theorem exists_segments_down {segments : List (List Char)} (hfront : p.front = [] :: segments)
    (h : ∀ n ∈ names, isName n = true) :
    ∃ more, (p.down names).written = ⟨true, false, more⟩ ∧
      dropComponents (spoken segments).length (trimSegments more) = names.map String.toList := by
  rcases names.eq_nil_or_concat' with rfl | ⟨front, last, rfl⟩
  · have hself : dropComponents (spoken segments).length (trimSegments segments) = [] := by
      have := dropComponents_append (trimSegments segments) []
      rwa [spoken_trimSegments, List.append_nil] at this
    rcases pieces_eq_front p with ⟨hne, hpieces⟩ | hpieces
    · rw [hfront] at hpieces
      refine ⟨segments, written_of_pieces hpieces ?_, hself⟩
      rintro rfl
      exact hne (Text.eq_nil_of_pieces hpieces)
    · rw [hfront, List.cons_append] at hpieces
      refine ⟨segments ++ [[]], written_of_pieces hpieces (by simp), ?_⟩
      have htrim : trimSegments (segments ++ [[]]) = trimSegments segments := by
        simp [trimSegments, silent]
      rw [htrim, hself]
      rfl
  · have hpieces := pieces_down (p := p) h (by simp)
    rw [hfront, List.cons_append] at hpieces
    refine ⟨_, written_of_pieces hpieces (by simp), ?_⟩
    have hlast := trimSegments_append (h last (by simp)) (segments ++ front.map String.toList)
    rw [List.map_append, List.map_singleton, ← List.append_assoc, hlast, List.append_assoc,
      dropComponents_append, ← List.map_singleton, ← List.map_append, dropComponents_names h]

theorem relativeTo_down (habs : p.isAbsolute = true) (h : ∀ n ∈ names, isName n = true) :
    relativeTo p (p.down names) = ofNames names := by
  obtain ⟨segments, hfront⟩ := List.head?_eq_some_iff.mp ((head?_front_eq_nil_iff p).mpr habs)
  have hcomponents : p.components = .root :: spoken segments := by
    rw [components_eq, hfront]
    rfl
  have hbelow : p.components.isPrefixOf (p.down names).components = true := by
    rw [components_down h, List.isPrefixOf_iff_prefix]
    exact List.prefix_append ..
  obtain ⟨more, hwritten, hmore⟩ := exists_segments_down hfront h
  rw [relativeTo, below?, hbelow]
  simp only [hwritten, hcomponents, List.isEmpty_cons, if_true, Bool.true_or, List.length_cons,
    Nat.add_sub_cancel, hmore]
  rw [ofNames, ← String.ofList_toList (s := "/".intercalate names), ← toList_ofNames]
  rfl

end Relative

/-- What paths are written from: the file system root, `.` or nothing. -/
def starts : List Path := [⟨"/"⟩, ⟨"."⟩, ⟨""⟩]

section Ancestors

private theorem trimSegments_names (h : ∀ n ∈ names, isName n = true) :
    trimSegments (names.map String.toList) = names.map String.toList := by
  rcases names.eq_nil_or_concat' with rfl | ⟨front, last, rfl⟩
  · rfl
  · rw [List.map_append, List.map_singleton]
    exact trimSegments_append (h last (by simp)) _

private theorem written_down {start : Path} (hs : start ∈ starts)
    (h : ∀ n ∈ names, isName n = true) (hne : names ≠ []) :
    ∃ w : Written, (start.down names).written = { w with segments := names.map String.toList } ∧
      { w with segments := [] }.path = start := by
  have hpieces := pieces_down (p := start) h hne
  cases names with
  | nil => exact absurd rfl hne
  | cons n names =>
    have hn := h n (by simp)
    simp only [starts, List.mem_cons, List.not_mem_nil, or_false] at hs
    rcases hs with rfl | rfl | rfl
    · refine ⟨⟨true, false, []⟩, ?_, rfl⟩
      unfold written
      rw [hpieces]
      rfl
    · refine ⟨⟨false, true, []⟩, ?_, rfl⟩
      unfold written
      rw [hpieces]
      rfl
    · refine ⟨⟨false, false, []⟩, ?_, rfl⟩
      unfold written
      rw [hpieces]
      split
      case h_1 heq => exact absurd (List.cons.inj heq).1 (toList_ne_nil_of_isName hn)
      case h_2 heq => exact absurd (List.cons.inj heq).1 (toList_ne_dot_of_isName hn)
      case h_3 => rfl

private theorem path_names (w : Written) (h : ∀ n ∈ names, isName n = true) :
    { w with segments := names.map String.toList }.path =
      Path.down { w with segments := [] }.path names := by
  cases names with
  | nil => rfl
  | cons n names =>
    have hbody := toList_ofNames_ne_nil h (by simp)
    apply eq_of_toList
    rw [toList_down h (by simp)]
    unfold Written.path
    rw [← toList_ofNames]
    obtain ⟨absolute, dotted, segments⟩ := w
    cases absolute <;> cases dotted <;> simp [hbody, stem]

theorem parent?_down {start : Path} (hs : start ∈ starts)
    (h : ∀ n ∈ names ++ [name], isName n = true) :
    (start.down (names ++ [name])).parent? = some (start.down names) := by
  obtain ⟨w, hwritten, hstart⟩ := written_down hs h (by simp)
  have hnames : ∀ n ∈ names, isName n = true := fun n hn => h n (by simp [hn])
  have hpath := path_names w hnames
  rw [hstart] at hpath
  unfold parent?
  rw [hwritten]
  simp only [trimSegments_names h]
  split
  case h_1 heq => simp at heq
  case h_2 =>
    rw [List.map_append, List.map_singleton, List.dropLast_concat, trimSegments_names hnames, hpath]

theorem ancestors_down {start : Path} (hs : start ∈ starts) (h : ∀ n ∈ names, isName n = true) :
    (start.down names).ancestors = names.inits.reverse.map start.down ++ start.ancestors.tail := by
  induction names using List.reverseRecOn with
  | nil => rfl
  | append_singleton names name ih =>
    have hnames : ∀ n ∈ names, isName n = true := fun n hn => h n (by simp [hn])
    have hlength : (start.down (names ++ [name])).components.length =
        (start.down names).components.length + 1 := by
      rw [components_down h, components_down hnames]
      simp
      omega
    rw [ancestors, hlength, upward, parent?_down hs h, Option.map_some, Option.getD_some, ← ancestors,
      ih hnames, List.inits_append]
    simp

end Ancestors
end CoroutineCheck.Path

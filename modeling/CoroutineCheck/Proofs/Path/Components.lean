import CoroutineCheck.Path
import Mathlib.Data.List.Basic
/-!
# Components of paths

A path is cut at its separators. What a name adds to a path, when it is put below, is one more piece and
one more component, however the path itself is written.
-/
namespace CoroutineCheck

namespace Text

variable {sep : Char}

theorem pieces_ne_nil (cs : List Char) : pieces sep cs ≠ [] := by
  cases cs with
  | nil => simp [pieces]
  | cons c cs =>
    rw [pieces]
    split
    · simp
    · split <;> simp

theorem pieces_of_not_mem {cs : List Char} (h : sep ∉ cs) : pieces sep cs = [cs] := by
  induction cs with
  | nil => rfl
  | cons c cs ih =>
    rw [List.mem_cons, not_or] at h
    rw [pieces, if_neg (Ne.symm h.1), ih h.2]

theorem pieces_append_sep (as bs : List Char) :
    pieces sep (as ++ sep :: bs) = pieces sep as ++ pieces sep bs := by
  induction as with
  | nil => simp [pieces]
  | cons a as ih =>
    rw [List.cons_append, pieces, pieces, ih]
    split
    · rfl
    · cases has : pieces sep as with
      | nil => exact absurd has (pieces_ne_nil as)
      | cons p ps => rfl

private theorem pieces_intercalate {ps : List (List Char)} (hne : ps ≠ []) (h : ∀ p ∈ ps, sep ∉ p) :
    pieces sep ([sep].intercalate ps) = ps := by
  induction ps with
  | nil => exact absurd rfl hne
  | cons p ps ih =>
    cases ps with
    | nil =>
      rw [List.intercalate_singleton]
      exact pieces_of_not_mem (h p (by simp))
    | cons q qs =>
      rw [List.intercalate_cons_cons, List.append_assoc, List.singleton_append, pieces_append_sep,
        pieces_of_not_mem (h p (by simp)), ih (by simp) fun r hr => h r (by simp [hr])]
      rfl

theorem intercalate_pieces (cs : List Char) : [sep].intercalate (pieces sep cs) = cs := by
  induction cs with
  | nil => simp [pieces]
  | cons c cs ih =>
    rw [pieces]
    cases hps : pieces sep cs with
    | nil => exact absurd hps (pieces_ne_nil cs)
    | cons p ps =>
      rw [hps] at ih
      split
      case isTrue hc =>
        rw [List.intercalate_cons_cons, ih, hc]
        rfl
      case isFalse =>
        cases ps with
        | nil => simpa using ih
        | cons q qs =>
          rw [List.intercalate_cons_cons] at ih ⊢
          simpa using ih

theorem sep_not_mem_pieces (cs : List Char) : ∀ p ∈ pieces sep cs, sep ∉ p := by
  induction cs with
  | nil => simp [pieces]
  | cons c cs ih =>
    rw [pieces]
    cases hps : pieces sep cs with
    | nil => exact absurd hps (pieces_ne_nil cs)
    | cons q qs =>
      rw [hps] at ih
      split
      case isTrue => exact List.forall_mem_cons.mpr ⟨List.not_mem_nil, ih⟩
      case isFalse hc =>
        obtain ⟨hq, hqs⟩ := List.forall_mem_cons.mp ih
        exact List.forall_mem_cons.mpr ⟨by simp [hq, Ne.symm hc], hqs⟩

theorem eq_nil_of_pieces {cs : List Char} (h : pieces sep cs = [[]]) : cs = [] := by
  cases cs with
  | nil => rfl
  | cons c cs =>
    rw [pieces] at h
    split at h
    · simp [pieces_ne_nil] at h
    · split at h <;> simp at h

theorem eq_sep_of_pieces {c : Char} {cs : List Char} {ps : List (List Char)}
    (h : pieces sep (c :: cs) = [] :: ps) : c = sep := by
  by_contra hc
  rw [pieces, if_neg hc] at h
  split at h <;> simp at h

end Text

namespace Path

/-- Whether a text can be the name of an entry of a directory. -/
def isName (name : String) : Bool :=
  !silent name.toList && name.toList != ['.', '.'] && !name.toList.contains '/'

section Name

variable {name : String}

theorem not_silent_of_isName (h : isName name = true) : silent name.toList = false := by
  simp only [isName, Bool.and_eq_true, Bool.not_eq_true'] at h
  exact h.1.1

private theorem ofSegment_of_isName (h : isName name = true) :
    Component.ofSegment name.toList = .name name := by
  simp only [isName, Bool.and_eq_true, bne_iff_ne, ne_eq] at h
  rw [Component.ofSegment, if_neg (by simpa using h.1.2), String.ofList_toList]

private theorem slash_not_mem_of_isName (h : isName name = true) : '/' ∉ name.toList := by
  simp only [isName, Bool.and_eq_true, Bool.not_eq_true', List.contains_eq_mem] at h
  exact of_decide_eq_false h.2

theorem toList_ne_nil_of_isName (h : isName name = true) : name.toList ≠ [] := by
  intro hnil
  simpa [hnil, silent] using not_silent_of_isName h

theorem toList_ne_dot_of_isName (h : isName name = true) : name.toList ≠ ['.'] := by
  intro hdot
  simpa [hdot, silent] using not_silent_of_isName h

private theorem getLast?_ne_slash_of_isName (h : isName name = true) : name.toList.getLast? ≠ some '/' :=
  fun hlast => slash_not_mem_of_isName h (List.mem_of_getLast? hlast)

theorem isAbsolute_of_isName (h : isName name = true) : isAbsolute ⟨name⟩ = false := by
  rw [isAbsolute, beq_eq_false_iff_ne]
  exact fun hhead => slash_not_mem_of_isName h (List.mem_of_head? hhead)

end Name

/-- The beginning of every path below a path. -/
def stem (p : Path) : List Char :=
  if p.text.isEmpty || p.text.toList.getLast? == some '/' then p.text.toList
  else p.text.toList ++ ['/']

/-- The pieces that every path below a path starts with. -/
def front (p : Path) : List (List Char) := (Text.pieces '/' p.stem).dropLast

variable {p q : Path} {name : String} {names : List String}

theorem eq_of_toList (h : p.text.toList = q.text.toList) : p = q :=
  congrArg Path.mk (String.toList_inj.mp h)

theorem toList_join (h : q.isAbsolute = false) :
    (p.join q).text.toList = p.stem ++ q.text.toList := by
  unfold join stem
  rw [if_neg (by simp [h])]
  split <;> simp

theorem stem_eq (p : Path) : p.stem = p.text.toList ∨ p.stem = p.text.toList ++ ['/'] := by
  unfold stem
  split
  · exact .inl rfl
  · exact .inr rfl

private theorem stem_cases (p : Path) : p.stem = [] ∨ ∃ cs, p.stem = cs ++ ['/'] := by
  unfold stem
  split
  case isTrue h =>
    rw [Bool.or_eq_true] at h
    rcases h with h | h
    · exact .inl (by simpa using h)
    · exact .inr ((List.getLast?_eq_some_iff).mp (by simpa using h))
  case isFalse => exact .inr ⟨_, rfl⟩

theorem slash_mem_stem (h : p.text.toList ≠ []) : '/' ∈ p.stem := by
  rcases stem_cases p with hnil | ⟨cs, hcs⟩
  · rcases stem_eq p with hstem | hstem
    · exact absurd (hstem.symm.trans hnil) h
    · simp [hstem]
  · simp [hcs]

private theorem pieces_stem_append (p : Path) (cs : List Char) :
    Text.pieces '/' (p.stem ++ cs) = p.front ++ Text.pieces '/' cs := by
  unfold front
  rcases stem_cases p with h | ⟨front, h⟩
  · rw [h]
    rfl
  · rw [h, List.append_assoc, List.singleton_append, Text.pieces_append_sep,
      Text.pieces_append_sep]
    simp [Text.pieces]

section Components

def lead (pieces : List (List Char)) : List Component :=
  if pieces.head? = some [] then [.root]
  else if pieces.head? = some ['.'] then [.here]
  else []

def spoken (pieces : List (List Char)) : List Component :=
  (pieces.filter (!silent ·)).map Component.ofSegment

@[simp] theorem spoken_append (xs ys : List (List Char)) :
    spoken (xs ++ ys) = spoken xs ++ spoken ys := by
  simp [spoken]

private theorem components_eq_pieces (p : Path) (h : p.text.toList ≠ []) :
    p.components = lead (Text.pieces '/' p.text.toList) ++ spoken (Text.pieces '/' p.text.toList) := by
  unfold components written lead
  split
  case h_1 heq =>
    rw [heq]
    rfl
  case h_2 heq =>
    rw [heq]
    rfl
  case h_3 habs hdot =>
    cases hpieces : Text.pieces '/' p.text.toList with
    | nil => exact absurd hpieces (Text.pieces_ne_nil _)
    | cons piece rest =>
      have hroot : piece ≠ [] := by
        rintro rfl
        cases rest with
        | nil => exact h (Text.eq_nil_of_pieces hpieces)
        | cons r rest => exact habs r rest hpieces
      have hhere : piece ≠ ['.'] := by
        rintro rfl
        exact hdot rest hpieces
      simp [hroot, hhere, spoken]

theorem pieces_eq_front (p : Path) :
    p.text.toList ≠ [] ∧ Text.pieces '/' p.text.toList = p.front ∨
      Text.pieces '/' p.text.toList = p.front ++ [[]] := by
  by_cases h : (p.text.isEmpty || p.text.toList.getLast? == some '/') = true
  · right
    have hstem : p.stem = p.text.toList := if_pos h
    rw [← hstem]
    simpa [Text.pieces] using pieces_stem_append p []
  · left
    have hstem : p.stem = p.text.toList ++ ['/'] := if_neg h
    refine ⟨fun hnil => h (by simp [String.toList_eq_nil_iff.mp hnil]), ?_⟩
    rw [front, hstem, Text.pieces_append_sep]
    simp [Text.pieces]

theorem front_ne_nil (h : p.text.toList ≠ []) : p.front ≠ [] := by
  intro hnil
  rcases pieces_eq_front p with ⟨_, hfront⟩ | hfront
  · exact Text.pieces_ne_nil _ (hfront.trans hnil)
  · rw [hnil] at hfront
    exact h (Text.eq_nil_of_pieces hfront)

theorem components_eq (p : Path) : p.components = lead p.front ++ spoken p.front := by
  by_cases hempty : p.text.toList = []
  · have htext : p = ⟨""⟩ := congrArg Path.mk (String.toList_eq_nil_iff.mp hempty)
    rw [htext]
    rfl
  · rw [components_eq_pieces p hempty]
    rcases pieces_eq_front p with ⟨_, h⟩ | h
    · rw [h]
    · obtain ⟨piece, rest, hfront⟩ := List.exists_cons_of_ne_nil (front_ne_nil hempty)
      have hsilent : spoken [[]] = [] := rfl
      rw [h, hfront, spoken_append, hsilent, List.append_nil]
      rfl

private theorem spoken_toList (h : isName name = true) : spoken [name.toList] = [.name name] := by
  simp [spoken, not_silent_of_isName h, ofSegment_of_isName h]

private theorem stem_of_ne_nil (h : p.text.toList ≠ []) :
    p.stem = if p.text.toList.getLast? = some '/' then p.text.toList else p.text.toList ++ ['/'] := by
  have hempty : p.text.isEmpty = false := by
    rw [Bool.eq_false_iff]
    intro hempty
    exact h (String.toList_eq_nil_iff.mpr (String.isEmpty_iff.mp hempty))
  simp [stem, hempty]

theorem stem_join (h : q.isAbsolute = false) (hq : q.text.toList ≠ []) :
    (p.join q).stem = p.stem ++ q.stem := by
  have htext : (p.join q).text.toList = p.stem ++ q.text.toList := toList_join h
  have hne : (p.join q).text.toList ≠ [] := by simp [htext, hq]
  rw [stem_of_ne_nil hne, stem_of_ne_nil hq, htext, List.getLast?_append_of_ne_nil _ hq]
  split
  · rfl
  · rw [List.append_assoc]

theorem front_join (h : q.isAbsolute = false) (hq : q.text.toList ≠ []) :
    (p.join q).front = p.front ++ q.front := by
  rw [front, stem_join h hq, pieces_stem_append,
    List.dropLast_append_of_ne_nil (Text.pieces_ne_nil _)]
  rfl

private theorem stem_of_isName (h : isName name = true) : stem ⟨name⟩ = name.toList ++ ['/'] := by
  rw [stem_of_ne_nil (toList_ne_nil_of_isName h), if_neg (getLast?_ne_slash_of_isName h)]

private theorem stem_join_name (h : isName name = true) :
    (p.join ⟨name⟩).stem = p.stem ++ name.toList ++ ['/'] := by
  rw [stem_join (isAbsolute_of_isName h) (toList_ne_nil_of_isName h), stem_of_isName h,
    List.append_assoc]

private theorem front_join_name (h : isName name = true) :
    (p.join ⟨name⟩).front = p.front ++ [name.toList] := by
  rw [front_join (isAbsolute_of_isName h) (toList_ne_nil_of_isName h)]
  congr 1
  rw [front, stem_of_isName h, Text.pieces_append_sep,
    Text.pieces_of_not_mem (slash_not_mem_of_isName h)]
  rfl

private theorem lead_append (h : isName name = true) (front : List (List Char)) :
    lead (front ++ [name.toList]) = lead front := by
  cases front with
  | nil => simp [lead, toList_ne_nil_of_isName h, toList_ne_dot_of_isName h]
  | cons piece rest => rfl

private theorem components_join (h : isName name = true) :
    (p.join ⟨name⟩).components = p.components ++ [.name name] := by
  rw [components_eq, components_eq, front_join_name h, lead_append h, spoken_append, spoken_toList h,
    List.append_assoc]

end Components

def down (p : Path) (names : List String) : Path := names.foldl (fun q name => q.join ⟨name⟩) p

def ofNames (names : List String) : Path := ⟨"/".intercalate names⟩

section Down

@[simp] theorem down_nil (p : Path) : p.down [] = p := rfl

theorem down_cons (p : Path) (name : String) (names : List String) :
    p.down (name :: names) = (p.join ⟨name⟩).down names := rfl

theorem down_append (p : Path) (xs ys : List String) : p.down (xs ++ ys) = (p.down xs).down ys :=
  List.foldl_append

theorem down_concat (p : Path) (names : List String) (name : String) :
    p.down (names ++ [name]) = (p.down names).join ⟨name⟩ := down_append ..

variable (h : ∀ n ∈ names, isName n = true)
include h

theorem front_down : (p.down names).front = p.front ++ names.map String.toList := by
  induction names generalizing p with
  | nil => simp
  | cons n names ih =>
    obtain ⟨hn, hnames⟩ := List.forall_mem_cons.mp h
    rw [down_cons, ih hnames, front_join_name hn, List.map_cons, List.append_assoc,
      List.singleton_append]

theorem head?_front_down (htext : p.text.toList ≠ []) :
    (p.down names).front.head? = p.front.head? := by
  obtain ⟨piece, rest, hfront⟩ := List.exists_cons_of_ne_nil (front_ne_nil htext)
  rw [front_down h, hfront]
  rfl

theorem components_down : (p.down names).components = p.components ++ names.map .name := by
  induction names generalizing p with
  | nil => simp
  | cons n names ih =>
    obtain ⟨hn, hnames⟩ := List.forall_mem_cons.mp h
    rw [down_cons, ih hnames, components_join hn, List.map_cons, List.append_assoc,
      List.singleton_append]

theorem toList_down (hne : names ≠ []) :
    (p.down names).text.toList = p.stem ++ (ofNames names).text.toList := by
  induction names generalizing p with
  | nil => exact absurd rfl hne
  | cons n names ih =>
    obtain ⟨hn, hnames⟩ := List.forall_mem_cons.mp h
    cases names with
    | nil => exact toList_join (isAbsolute_of_isName hn)
    | cons m names =>
      rw [down_cons, ih hnames (by simp), stem_join_name hn]
      simp [ofNames, String.toList_intercalate]

private theorem pieces_ofNames (hne : names ≠ []) :
    Text.pieces '/' (ofNames names).text.toList = names.map String.toList := by
  rw [ofNames, String.toList_intercalate]
  apply Text.pieces_intercalate
  · simpa using hne
  · simpa using fun n hn => slash_not_mem_of_isName (h n hn)

theorem toList_ofNames_ne_nil (hne : names ≠ []) : (ofNames names).text.toList ≠ [] := by
  intro hnil
  have hpieces := pieces_ofNames h hne
  cases names with
  | nil => exact hne rfl
  | cons n names =>
    rw [hnil, List.map_cons] at hpieces
    exact toList_ne_nil_of_isName (h n (by simp)) (List.cons.inj hpieces).1.symm

theorem toList_down_ne_nil (hne : p.text.toList ≠ [] ∨ names ≠ []) :
    (p.down names).text.toList ≠ [] := by
  by_cases hnames : names = []
  · subst hnames
    exact hne.resolve_right fun hne => hne rfl
  · rw [toList_down h hnames]
    simp [toList_ofNames_ne_nil h hnames]

theorem pieces_down (hne : names ≠ []) :
    Text.pieces '/' (p.down names).text.toList = p.front ++ names.map String.toList := by
  rw [toList_down h hne, pieces_stem_append, pieces_ofNames h hne]

end Down

end Path
end CoroutineCheck

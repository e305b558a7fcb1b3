import CoroutineCheck.Text.Blank
import CoroutineCheck.Text.Search
/-!
# Searching, specified

A text is what was found put back together, and what lies in front of a first occurrence, or behind
a last one, holds no other. A search for a text succeeds exactly on the texts that have it as a piece.
What trimming takes away is blank, and blanks around a text do not matter to it.
-/
namespace CoroutineCheck.Text

theorem after?_eq_some_iff {lead text rest : List Char} :
    after? lead text = some rest ↔ text = lead ++ rest := by
  induction lead generalizing text with
  | nil => simp [after?, eq_comm]
  | cons l lead ih =>
    cases text with
    | nil => simp [after?]
    | cons c text =>
      rw [after?]
      by_cases hc : l = c
      · simp [hc, ih]
      · simp [hc, Ne.symm hc]

theorem before?_eq_some_iff {tail text front : List Char} :
    before? tail text = some front ↔ text = front ++ tail := by
  rw [before?, Option.map_eq_some_iff]
  simp only [after?_eq_some_iff]
  constructor
  · rintro ⟨rest, htext, rfl⟩
    rw [← List.reverse_reverse text, htext]
    simp
  · rintro rfl
    exact ⟨front.reverse, by simp, by simp⟩

theorem contains_iff {sub text : List Char} : contains sub text = true ↔ sub <:+: text := by
  have hlead {text : List Char} : (after? sub text).isSome = true ↔ sub <+: text := by
    rw [Option.isSome_iff_exists]
    simp only [after?_eq_some_iff]
    constructor
    · rintro ⟨rest, hrest⟩
      exact ⟨rest, hrest.symm⟩
    · rintro ⟨rest, hrest⟩
      exact ⟨rest, hrest.symm⟩
  unfold contains
  induction text with
  | nil => simp [cut?, hlead]
  | cons c cs ih =>
    rw [List.infix_cons_iff, ← hlead, cut?]
    cases after? sub (c :: cs) with
    | none => simpa using ih
    | some rest => simp

theorem cut?_eq_none_iff {sub text : List Char} : cut? sub text = none ↔ ¬ sub <:+: text := by
  rw [← contains_iff, contains, Bool.not_eq_true, Option.isSome_eq_false_iff,
    Option.isNone_iff_eq_none]

/-- The first occurrence of a text: none begins in front of it. -/
theorem cut?_of_not_infix {sub front : List Char} (rest : List Char) (hsub : sub ≠ [])
    (h : ¬ sub <:+: front ++ sub.dropLast) : cut? sub (front ++ (sub ++ rest)) = some (front, rest) := by
  have hfound : after? sub (sub ++ rest) = some rest := after?_eq_some_iff.mpr rfl
  induction front with
  | nil =>
    rw [List.nil_append]
    cases sub with
    | nil => exact absurd rfl hsub
    | cons c sub =>
      rw [List.cons_append] at hfound ⊢
      rw [cut?, hfound]
  | cons c front ih =>
    rw [List.cons_append, List.infix_cons_iff, not_or] at h
    have hlate : after? sub (c :: (front ++ (sub ++ rest))) = none := by
      rw [Option.eq_none_iff_forall_ne_some]
      intro tail htail
      -- An occurrence here would end before the last character of the first one.
      refine h.1 (List.prefix_of_prefix_length_le ⟨tail, (after?_eq_some_iff.mp htail).symm⟩
        ⟨sub.getLast hsub :: rest, ?_⟩ ?_)
      · have hsplit : sub.dropLast ++ sub.getLast hsub :: rest = sub ++ rest := by
          rw [List.append_cons, List.dropLast_concat_getLast]
        rw [List.cons_append, List.append_assoc, hsplit]
      · have hlen := List.length_pos_iff.mpr hsub
        simp only [List.length_cons, List.length_append, List.length_dropLast]
        omega
    rw [List.cons_append, cut?, hlate, ih h.2]
    rfl

theorem exists_first_infix {sub text : List Char} (hsub : sub ≠ []) (h : sub <:+: text) :
    ∃ front rest, text = front ++ (sub ++ rest) ∧ ¬ sub <:+: front ++ sub.dropLast := by
  induction text with
  | nil => exact absurd (List.infix_nil.mp h) hsub
  | cons c cs ih =>
    by_cases hhere : sub <+: c :: cs
    · obtain ⟨rest, hrest⟩ := hhere
      refine ⟨[], rest, hrest.symm, ?_⟩
      intro hinside
      have hlength := hinside.length_le
      have hpos := List.length_pos_iff.mpr hsub
      rw [List.nil_append, List.length_dropLast] at hlength
      omega
    · have hlater := (List.infix_cons_iff.mp h).resolve_left hhere
      obtain ⟨front, rest, rfl, hfirst⟩ := ih hlater
      refine ⟨c :: front, rest, rfl, ?_⟩
      rw [List.cons_append, List.infix_cons_iff, not_or]
      refine ⟨?_, hfirst⟩
      intro hstart
      refine hhere (hstart.trans ?_)
      rw [List.cons_prefix_cons, List.prefix_append_right_inj]
      exact ⟨rfl, (List.dropLast_prefix sub).trans (List.prefix_append sub rest)⟩

theorem cut?_singleton_eq_some_iff {sep : Char} {text front rest : List Char} :
    cut? [sep] text = some (front, rest) ↔ text = front ++ sep :: rest ∧ sep ∉ front := by
  induction text generalizing front with
  | nil => simp [cut?, after?]
  | cons c cs ih =>
    rw [cut?]
    by_cases hc : sep = c
    · subst hc
      simp only [after?, ↓reduceIte, Option.some.injEq, Prod.mk.injEq]
      cases front with
      | nil => simp
      | cons d front => simp +contextual
    · simp only [after?, hc, ↓reduceIte, Option.map_eq_some_iff, Prod.exists, Prod.mk.injEq]
      cases front with
      | nil => simp [Ne.symm hc]
      | cons d front =>
        constructor
        · rintro ⟨a, b, h, ⟨rfl, rfl⟩, rfl⟩
          obtain ⟨rfl, hnot⟩ := ih.mp h
          exact ⟨rfl, by simp [hc, hnot]⟩
        · rintro ⟨h, hnot⟩
          cases h
          exact ⟨front, rest, ih.mpr ⟨rfl, fun hm => hnot (by simp [hm])⟩, rfl, rfl⟩

theorem cutLast?_eq_some_iff {sep : Char} {text front rest : List Char} :
    cutLast? sep text = some (front, rest) ↔ text = front ++ sep :: rest ∧ sep ∉ rest := by
  simp only [cutLast?, Option.map_eq_some_iff, Prod.exists, Prod.mk.injEq,
    cut?_singleton_eq_some_iff]
  constructor
  · rintro ⟨a, b, ⟨htext, hnot⟩, rfl, rfl⟩
    refine ⟨?_, by simpa using hnot⟩
    rw [← List.reverse_reverse text, htext]
    simp
  · rintro ⟨rfl, hnot⟩
    exact ⟨rest.reverse, front.reverse, by simpa using hnot, by simp, by simp⟩

theorem trim_spec (cs : List Char) :
    ∃ front back, cs = front ++ trim cs ++ back ∧ (∀ c ∈ front, isBlank c = true) ∧
      ∀ c ∈ back, isBlank c = true := by
  have hleft : cs.takeWhile isBlank ++ trimLeft cs = cs := List.takeWhile_append_dropWhile
  have hright : (trimLeft cs).reverse.takeWhile isBlank ++ (trim cs).reverse =
      (trimLeft cs).reverse := by
    rw [trim, trimRight, List.reverse_reverse, List.takeWhile_append_dropWhile]
  refine ⟨cs.takeWhile isBlank, ((trimLeft cs).reverse.takeWhile isBlank).reverse, ?_, ?_, ?_⟩
  · have h := congrArg List.reverse hright
    rw [List.reverse_append, List.reverse_reverse, List.reverse_reverse] at h
    rw [List.append_assoc, h, hleft]
  · exact fun c hc => List.all_eq_true.mp List.all_takeWhile c hc
  · exact fun c hc => List.all_eq_true.mp List.all_takeWhile c (List.mem_reverse.mp hc)

private theorem trimLeft_append_of_blank {lead : List Char} (h : ∀ c ∈ lead, isBlank c = true)
    (cs : List Char) : trimLeft (lead ++ cs) = trimLeft cs :=
  List.dropWhile_append_of_pos h

private theorem trimLeft_of_head? {cs : List Char} (h : cs.head?.any isBlank = false) :
    trimLeft cs = cs := by
  cases cs with
  | nil => rfl
  | cons c cs =>
    rw [List.head?_cons, Option.any_some] at h
    exact List.dropWhile_cons_of_neg (by simp [h])

private theorem trimRight_append_of_blank {back : List Char} (h : ∀ c ∈ back, isBlank c = true)
    (cs : List Char) : trimRight (cs ++ back) = trimRight cs := by
  unfold trimRight
  rw [List.reverse_append, List.dropWhile_append_of_pos]
  exact fun c hc => h c (List.mem_reverse.mp hc)

private theorem trimRight_of_getLast? {cs : List Char} (h : cs.getLast?.any isBlank = false) :
    trimRight cs = cs := by
  have hleft : trimLeft cs.reverse = cs.reverse := by
    apply trimLeft_of_head?
    rwa [List.head?_reverse]
  unfold trimLeft at hleft
  rw [trimRight, hleft, List.reverse_reverse]

theorem trim_eq_self {cs : List Char} (hhead : cs.head?.any isBlank = false)
    (hlast : cs.getLast?.any isBlank = false) : trim cs = cs := by
  rw [trim, trimLeft_of_head? hhead, trimRight_of_getLast? hlast]

theorem trim_eq_nil_iff {cs : List Char} : trim cs = [] ↔ ∀ c ∈ cs, isBlank c = true := by
  constructor
  · intro h
    obtain ⟨front, back, hcs, hfront, hback⟩ := trim_spec cs
    rw [h, List.append_nil] at hcs
    rw [hcs]
    exact List.forall_mem_append.mpr ⟨hfront, hback⟩
  · intro h
    have hleft := trimLeft_append_of_blank h []
    rw [List.append_nil] at hleft
    rw [trim, hleft]
    rfl

theorem trim_append_of_blank {lead back : List Char} (hlead : ∀ c ∈ lead, isBlank c = true)
    (hback : ∀ c ∈ back, isBlank c = true) (cs : List Char) : trim (lead ++ cs ++ back) = trim cs := by
  rw [List.append_assoc, trim, trimLeft_append_of_blank hlead]
  by_cases hcs : ∀ c ∈ cs, isBlank c = true
  · rw [trim_eq_nil_iff.mpr hcs]
    exact trim_eq_nil_iff.mpr (List.forall_mem_append.mpr ⟨hcs, hback⟩)
  · -- Trimming on the left stops inside `cs`.
    have hleft : trimLeft (cs ++ back) = trimLeft cs ++ back := by
      unfold trimLeft
      rw [List.dropWhile_append, if_neg]
      intro hnil
      refine hcs (trim_eq_nil_iff.mp ?_)
      rw [trim, trimLeft, List.isEmpty_iff.mp hnil]
      rfl
    rw [hleft, trimRight_append_of_blank hback, trim]

theorem trim_of_visible {lead cs : List Char} (hlead : ∀ c ∈ lead, isBlank c = true)
    (hhead : cs.head?.any isBlank = false) (hlast : cs.getLast?.any isBlank = false) :
    trim (lead ++ cs) = cs := by
  have hblank := trim_append_of_blank hlead (List.forall_mem_nil _) cs
  rw [List.append_nil] at hblank
  rw [hblank, trim_eq_self hhead hlast]

private theorem head?_dropWhile_isBlank (cs : List Char) :
    (cs.dropWhile isBlank).head?.any isBlank = false := by
  induction cs with
  | nil => rfl
  | cons c cs ih =>
    rw [List.dropWhile_cons]
    split
    case isTrue => exact ih
    case isFalse hc => simpa using hc

theorem visible_trim (cs : List Char) :
    (trim cs).head?.any isBlank = false ∧ (trim cs).getLast?.any isBlank = false := by
  constructor
  · obtain ⟨back, hback⟩ : ∃ back, trimLeft cs = trim cs ++ back := by
      refine ⟨((trimLeft cs).reverse.takeWhile isBlank).reverse, ?_⟩
      rw [trim, trimRight, ← List.reverse_append, List.takeWhile_append_dropWhile, List.reverse_reverse]
    have hhead := head?_dropWhile_isBlank cs
    rw [← trimLeft, hback] at hhead
    cases htrim : trim cs with
    | nil => rfl
    | cons c rest =>
      rw [htrim] at hhead
      exact hhead
  · rw [trim, trimRight, List.getLast?_reverse]
    exact head?_dropWhile_isBlank _

theorem squeeze_append (cs ds : List Char) : squeeze (cs ++ ds) = squeeze cs ++ squeeze ds :=
  List.filter_append cs ds

theorem squeeze_cons_of_blank {c : Char} (h : isBlank c = true) (cs : List Char) :
    squeeze (c :: cs) = squeeze cs :=
  List.filter_cons_of_neg (by simp [h])

theorem squeeze_cons_of_visible {c : Char} (h : isBlank c = false) (cs : List Char) :
    squeeze (c :: cs) = c :: squeeze cs :=
  List.filter_cons_of_pos (by simp [h])

theorem squeeze_of_blank {cs : List Char} (h : ∀ c ∈ cs, isBlank c = true) : squeeze cs = [] := by
  rw [squeeze, List.filter_eq_nil_iff]
  intro c hc
  simp [h c hc]

theorem squeeze_append_ne {cs ds : List Char} {c : Char} (hc : isBlank c = false) (hm : c ∈ ds) :
    squeeze (cs ++ ds) ≠ squeeze cs := by
  rw [squeeze_append, Ne, List.append_right_eq_self]
  exact List.ne_nil_of_mem (List.mem_filter.mpr ⟨hm, by simp [hc]⟩)

theorem squeeze_trim (cs : List Char) : squeeze (trim cs) = squeeze cs := by
  obtain ⟨front, back, hcs, hfront, hback⟩ := trim_spec cs
  have hall := congrArg squeeze hcs
  rw [squeeze_append, squeeze_append, squeeze_of_blank hfront, squeeze_of_blank hback] at hall
  simpa using hall.symm

theorem getLast?_squeeze {cs : List Char} (h : cs.getLast?.any isBlank = false) :
    (squeeze cs).getLast? = cs.getLast? := by
  rcases List.eq_nil_or_concat cs with rfl | ⟨front, c, rfl⟩
  · rfl
  · rw [List.concat_eq_append] at h ⊢
    rw [List.getLast?_concat, Option.any_some] at h
    rw [squeeze_append, squeeze_cons_of_visible h, List.getLast?_concat]
    exact List.getLast?_concat

theorem getLast?_trim (cs : List Char) : (trim cs).getLast? = (squeeze cs).getLast? := by
  rw [← squeeze_trim, getLast?_squeeze (visible_trim cs).2]

end CoroutineCheck.Text

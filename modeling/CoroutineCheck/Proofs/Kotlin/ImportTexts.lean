import CoroutineCheck.Proofs.Kotlin.TypeReferences
import Mathlib.Data.List.Induction
/-!
# Imports as they are written

An import names a path, and it may take everything in it or give it another name. Blanks can stand around
every word and every dot, and semicolons at the end. All of it is found again however it is spaced, with
two exceptions, since the word `as` is looked for between two spaces. Where it stands between other blanks,
the path, the word and the other name are read as one path. And back quotes are not heeded: if a word
between them has `as` between spaces, the import is cut there.
-/
namespace CoroutineCheck.Kotlin

/-! ## The word `as` between spaces

Where a text can be cut at the word: inside a word, or where the word stands by itself. -/

/-- What the two sides of a renaming import are separated by. -/
def spacedAs : List Char := [' ', 'a', 's', ' ']

private theorem toList_spacedAs : " as ".toList = spacedAs := rfl

private theorem cut_append_cons {sub x y front back : List Char} {c : Char} (hc : c ∉ sub)
    (h : x ++ c :: y = front ++ (sub ++ back)) :
    (∃ rest, x = front ++ (sub ++ rest) ∧ back = rest ++ c :: y) ∨
      ∃ rest, front = x ++ c :: rest ∧ y = rest ++ (sub ++ back) := by
  rw [← List.append_assoc] at h
  rcases List.append_eq_append_iff.mp h with ⟨tail, hfront, hy⟩ | ⟨rest, hx, hback⟩
  · cases tail with
    | nil => exact .inl ⟨[], by simpa using hfront.symm, hy.symm⟩
    | cons d tail =>
      -- The character stands in front of the end of the piece, so in front of the piece.
      obtain ⟨rfl, rfl⟩ := List.cons_eq_cons.mp hy
      rcases List.append_eq_append_iff.mp hfront with ⟨rest, _, hsub⟩ | ⟨rest, hbefore, hsub⟩
      · simp [hsub] at hc
      · cases rest with
        | nil =>
          rw [List.nil_append] at hsub
          simp [← hsub] at hc
        | cons e rest =>
          obtain ⟨rfl, rfl⟩ := List.cons_eq_cons.mp hsub
          exact .inr ⟨rest, hbefore, List.append_assoc ..⟩
  · exact .inl ⟨rest, by simpa using hx, hback⟩

private theorem cut_blank_append {lead cs front name : List Char} (hlead : ∀ c ∈ lead, Text.isBlank c = true)
    (h : lead ++ cs = front ++ (spacedAs ++ name)) :
    (∃ rest, front = lead ++ rest ∧ cs = rest ++ (spacedAs ++ name)) ∨ ['a', 's', ' '] <+: cs := by
  induction lead generalizing front with
  | nil => exact .inl ⟨front, rfl, h⟩
  | cons b lead ih =>
    obtain ⟨_, hlead⟩ := List.forall_mem_cons.mp hlead
    cases front with
    | nil =>
      have htail := (List.cons_eq_cons.mp h).2
      cases lead with
      | nil => exact .inr ⟨name, htail.symm⟩
      | cons c lead =>
        have hblank := hlead c List.mem_cons_self
        rw [(List.cons_eq_cons.mp htail).1] at hblank
        exact absurd hblank (by decide)
    | cons c front =>
      obtain ⟨rfl, htail⟩ := List.cons_eq_cons.mp h
      rcases ih hlead htail with ⟨rest, rfl, hcs⟩ | hstart
      · exact .inl ⟨rest, rfl, hcs⟩
      · exact .inr hstart

private theorem cut_append_blank {back cs front name : List Char} (hback : ∀ c ∈ back, Text.isBlank c = true)
    (h : cs ++ back = front ++ (spacedAs ++ name)) :
    (∃ rest, cs = front ++ (spacedAs ++ rest) ∧ name = rest ++ back) ∨ [' ', 'a', 's'] <:+ cs := by
  have hvisible {c : Char} (hc : Text.isBlank c = false) : c ∉ back := by
    intro hm
    simp [hback c hm] at hc
  have ha : 'a' ∉ back := hvisible (by decide)
  have hs : 's' ∉ back := hvisible (by decide)
  rcases List.append_eq_append_iff.mp h with ⟨rest, _, rfl⟩ | ⟨rest, hcs, hrest⟩
  · simp [spacedAs] at ha
  · -- The blanks begin inside the separator or behind it.
    rcases rest with _ | ⟨b, _ | ⟨c, _ | ⟨d, _ | ⟨e, rest⟩⟩⟩⟩ <;> simp [spacedAs] at hrest
    · simp [← hrest] at ha
    · simp [← hrest.2] at ha
    · simp [← hrest.2.2] at hs
    · obtain ⟨rfl, rfl, rfl, _⟩ := hrest
      exact .inr ⟨front, hcs.symm⟩
    · obtain ⟨rfl, rfl, rfl, rfl, hname⟩ := hrest
      exact .inl ⟨rest, hcs, hname⟩

/-- Between a text that ends with a blank and one that begins with one, the word `as` adds a cut only if
both blanks are spaces. -/
private theorem cut_between {b d : Char} {x y front name : List Char}
    (h : x ++ [b] ++ 'a' :: 's' :: d :: y = front ++ (spacedAs ++ name)) :
    (∃ rest, x ++ [b] = front ++ (spacedAs ++ rest) ∧ name = rest ++ 'a' :: 's' :: d :: y) ∨
      (x = front ∧ b = ' ' ∧ d = ' ' ∧ y = name) ∨
      ∃ rest, front = x ++ [b] ++ 'a' :: 's' :: rest ∧ d :: y = rest ++ (spacedAs ++ name) := by
  rcases List.append_eq_append_iff.mp h with ⟨rest, hfront, hrest⟩ | ⟨rest, hx, hrest⟩
  · -- The separator begins behind the first blank.
    rcases rest with _ | ⟨_, _ | ⟨_, rest⟩⟩ <;> simp [spacedAs] at hrest
    obtain ⟨rfl, rfl, hrest⟩ := hrest
    exact .inr (.inr ⟨rest, hfront, hrest⟩)
  · rcases rest with _ | ⟨c, _ | ⟨_, _ | ⟨_, _ | ⟨_, rest⟩⟩⟩⟩ <;> simp [spacedAs] at hrest
    · obtain ⟨rfl, rfl, hname⟩ := hrest
      obtain ⟨rfl, hblank⟩ := List.append_inj' hx rfl
      exact .inr (.inl ⟨rfl, List.singleton_inj.mp hblank, rfl, hname.symm⟩)
    · obtain ⟨rfl, rfl, rfl, rfl, hname⟩ := hrest
      exact .inl ⟨rest, hx, hname⟩

private theorem not_infix_concat {cs : List Char} {c : Char} (hc : c ≠ ' ') (h : ¬ spacedAs <:+: cs) :
    ¬ spacedAs <:+: cs ++ [c] := by
  rw [List.infix_concat_iff, not_or]
  refine ⟨?_, h⟩
  rintro ⟨front, hfront⟩
  have hlast := congrArg List.getLast? hfront
  simp [spacedAs] at hlast
  exact hc hlast.symm

/-! ## Words and paths with blanks around them -/

inductive Padded (word : List Char) : (text : List Char) → Prop where
  | blanks {lead back : List Char} : (∀ c ∈ lead, Text.isBlank c = true) →
      (∀ c ∈ back, Text.isBlank c = true) → Padded word (lead ++ word ++ back)

private theorem Padded.squeeze_eq {word text : List Char} (h : Padded word text) :
    Text.squeeze text = Text.squeeze word := by
  cases h with
  | blanks hlead hback =>
    simp [Text.squeeze_append, Text.squeeze_of_blank hlead, Text.squeeze_of_blank hback]

/-- The cut between two texts goes through a word. -/
def CutsThrough (word front name : List Char) : Prop :=
  ∃ before inner rest after, word = inner ++ (spacedAs ++ rest) ∧ front = before ++ inner ∧
    name = rest ++ after

namespace CutsThrough

variable {word front name : List Char}

private theorem infix_word (h : CutsThrough word front name) : spacedAs <:+: word := by
  obtain ⟨_, inner, rest, _, rfl, _⟩ := h
  exact ⟨inner, rest, List.append_assoc ..⟩

theorem append_left (h : CutsThrough word front name) (more : List Char) :
    CutsThrough word (more ++ front) name := by
  obtain ⟨before, inner, rest, after, hword, rfl, hname⟩ := h
  exact ⟨more ++ before, inner, rest, after, hword, (List.append_assoc ..).symm, hname⟩

private theorem append_right (h : CutsThrough word front name) (more : List Char) :
    CutsThrough word front (name ++ more) := by
  obtain ⟨before, inner, rest, after, hword, hfront, rfl⟩ := h
  exact ⟨before, inner, rest, after ++ more, hword, hfront, List.append_assoc ..⟩

end CutsThrough

theorem Padded.cut {word text front name : List Char} (h : Padded word text)
    (hend : ¬ [' ', 'a', 's'] <:+ word)
    (hstart : ∀ back : List Char, (∀ c ∈ back, Text.isBlank c = true) → ¬ ['a', 's', ' '] <+: word ++ back)
    (hcut : text = front ++ (spacedAs ++ name)) : CutsThrough word front name := by
  cases h with
  | @blanks lead back hlead hback =>
    rw [List.append_assoc] at hcut
    rcases cut_blank_append hlead hcut with ⟨inner, hfront, hcut⟩ | h
    · rcases cut_append_blank hback hcut with ⟨rest, hword, hname⟩ | h
      · exact ⟨lead, inner, rest, back, hword, hfront, hname⟩
      · exact absurd h hend
    · exact absurd h (hstart back hback)

namespace Identifier

/-- An identifier begins and ends with a visible character, and not with a star or a semicolon. -/
def isEnd (c : Char) : Bool := !Text.isBlank c && c != '*' && c != ';'

private theorem isEnd_of_isPlain {c : Char} (h : isPlain c = true) : isEnd c = true := by
  simp only [isPlain, Bool.not_eq_true', Bool.or_eq_false_iff] at h
  have hstar : c ≠ '*' := by
    rintro rfl
    exact absurd h.2 (by decide)
  have hsemicolon : c ≠ ';' := by
    rintro rfl
    exact absurd h.1.2 (by decide)
  simp [isEnd, h.1.1, hstar, hsemicolon]

private theorem isEnd_head? (w : Identifier) : w.text.head?.any isEnd = true := by
  rcases w.plain_or_quoted with hplain | ⟨hhead, _⟩
  · cases htext : w.text with
    | nil => exact absurd htext w.ne_nil
    | cons c cs =>
      rw [htext, List.all_cons, Bool.and_eq_true] at hplain
      simpa using isEnd_of_isPlain hplain.1
  · rw [hhead]
    decide

private theorem isEnd_getLast? (w : Identifier) : w.text.getLast?.any isEnd = true := by
  rcases w.plain_or_quoted with hplain | ⟨_, hlast⟩
  · rw [List.getLast?_eq_some_getLast w.ne_nil]
    exact isEnd_of_isPlain (List.all_eq_true.mp hplain _ (List.getLast_mem w.ne_nil))
  · rw [hlast]
    decide

private theorem ne_nil_of_isEnd {cs : List Char} (h : cs.getLast?.any isEnd = true) : cs ≠ [] := by
  rintro rfl
  simp at h

private theorem visible_of_isEnd {c? : Option Char} (h : c?.any isEnd = true) :
    c?.any Text.isBlank = false := by
  cases c? with
  | none => rfl
  | some c => simp_all [isEnd]

private theorem no_semicolon_of_isEnd {c? : Option Char} (h : c?.any isEnd = true) :
    c?.any (· != ';') = true := by
  cases c? with
  | none => simp at h
  | some c => simp_all [isEnd]

private theorem not_suffix (w : Identifier) : ¬ [' ', 'a', 's'] <:+ w.text := by
  rintro ⟨front, hfront⟩
  rcases w.plain_or_quoted with hplain | ⟨_, hlast⟩
  · rw [← hfront] at hplain
    have hspace := List.all_eq_true.mp hplain ' ' (by simp)
    exact absurd hspace (by decide)
  · rw [← hfront] at hlast
    simp at hlast

private theorem not_prefix (w : Identifier) {back : List Char} (hback : ∀ c ∈ back, Text.isBlank c = true) :
    ¬ ['a', 's', ' '] <+: w.text ++ back := by
  intro h
  have hplain : w.text.all isPlain = true := by
    refine w.plain_or_quoted.resolve_right ?_
    rintro ⟨hhead, _⟩
    obtain ⟨cs, hcs⟩ := List.head?_eq_some_iff.mp hhead
    rw [hcs, List.cons_append, List.cons_prefix_cons] at h
    exact absurd h.1 (by decide)
  have hne := w.ne_nil
  have hnot := w.not_as
  generalize w.text = cs at h hplain hne hnot
  rcases cs with _ | ⟨c, _ | ⟨d, _ | ⟨e, cs⟩⟩⟩
  · exact hne rfl
  · cases back with
    | nil => simp at h
    | cons b back =>
      simp at h
      have hblank := hback b List.mem_cons_self
      rw [← h.2.1] at hblank
      exact absurd hblank (by decide)
  · simp at h
    exact hnot (by rw [← h.1, ← h.2.1])
  · simp at h
    rw [← h.2.2] at hplain
    simp at hplain
    exact absurd hplain.2.2.1 (by decide)

end Identifier

theorem Padded.trim_eq {w : Identifier} {text : List Char} (h : Padded w.text text) :
    Text.trim text = w.text := by
  cases h with
  | blanks hlead hback =>
    rw [Text.trim_append_of_blank hlead hback]
    exact Text.trim_eq_self (Identifier.visible_of_isEnd w.isEnd_head?)
      (Identifier.visible_of_isEnd w.isEnd_getLast?)

private theorem Padded.trim_tail {w : Identifier} {text : List Char} (h : Padded w.text (' ' :: text)) :
    Text.trim text = w.text := by
  have hspace : ∀ c ∈ [' '], Text.isBlank c = true := List.forall_mem_singleton.mpr (by decide)
  have hblank := Text.trim_append_of_blank hspace (List.forall_mem_nil _) text
  rw [List.append_nil] at hblank
  rw [← hblank]
  exact h.trim_eq

private theorem Padded.identifier_cut {w : Identifier} {text front name : List Char} (h : Padded w.text text)
    (hcut : text = front ++ (spacedAs ++ name)) : CutsThrough w.text front name :=
  h.cut w.not_suffix (fun _ => w.not_prefix) hcut

/-- An identifier with a cut through it is in back quotes. They stay on both sides of the cut, and no dot
stands between the first one and the cut. -/
theorem CutsThrough.quoted {w : Identifier} {front name : List Char} (h : CutsThrough w.text front name) :
    (∃ before inner, front = before ++ '\x60' :: inner ∧ '.' ∉ inner) ∧ '\x60' ∈ name := by
  obtain ⟨before, inner, rest, after, hword, rfl, rfl⟩ := h
  have hquoted : w.text.head? = some '\x60' ∧ w.text.getLast? = some '\x60' := by
    refine w.plain_or_quoted.resolve_left ?_
    intro hplain
    rw [hword] at hplain
    have hspace := List.all_eq_true.mp hplain ' ' (by simp [spacedAs])
    exact absurd hspace (by decide)
  have hdot : '.' ∉ w.text := w.not_mem_of_isMark (by decide)
  rw [hword] at hquoted hdot
  constructor
  · cases inner with
    | nil => exact absurd hquoted.1 (by simp [spacedAs])
    | cons c inner =>
      obtain rfl : c = '\x60' := by simpa using hquoted.1
      refine ⟨before, inner, rfl, ?_⟩
      intro hm
      exact hdot (by simp [hm])
  · rcases List.eq_nil_or_concat' rest with rfl | ⟨rest, c, rfl⟩
    · exact absurd hquoted.2 (by simp [spacedAs])
    · rw [← List.append_assoc, ← List.append_assoc, List.getLast?_concat, Option.some.injEq] at hquoted
      simp [hquoted.2]

/-- A dotted path with blanks around its words. -/
inductive WritesPath : (path : List Identifier) → (text : List Char) → Prop where
  | one {w : Identifier} {text : List Char} : Padded w.text text → WritesPath [w] text
  | more {w : Identifier} {path : List Identifier} {text rest : List Char} : Padded w.text text →
      WritesPath path rest → WritesPath (w :: path) (text ++ '.' :: rest)

namespace WritesPath

variable {path : List Identifier} {text : List Char}

theorem ne_nil (h : WritesPath path text) : path ≠ [] := by
  cases h <;> exact List.cons_ne_nil _ _

private theorem squeeze_eq (h : WritesPath path text) : Text.squeeze text = Text.squeeze (dotted path) := by
  induction h with
  | one hw => simpa [dotted] using hw.squeeze_eq
  | @more w path text rest hw hpath ih =>
    obtain ⟨u, path, rfl⟩ := List.exists_cons_of_ne_nil hpath.ne_nil
    have hdot : Text.isBlank '.' = false := by decide
    rw [dotted_cons_cons, Text.squeeze_append, Text.squeeze_append, hw.squeeze_eq,
      Text.squeeze_cons_of_visible hdot, Text.squeeze_cons_of_visible hdot, ih]

private theorem infix_of_mem {w : Identifier} (h : WritesPath path text) (hw : w ∈ path) :
    w.text <:+: text := by
  have hpadded {u : Identifier} {text : List Char} (hu : Padded u.text text) : u.text <:+: text := by
    cases hu with
    | @blanks lead back _ _ => exact ⟨lead, back, rfl⟩
  induction h with
  | one hu =>
    rw [List.mem_singleton.mp hw]
    exact hpadded hu
  | @more u path text rest hu _ ih =>
    rcases List.mem_cons.mp hw with rfl | hw
    · exact (hpadded hu).trans (List.prefix_append text _).isInfix
    · exact (ih hw).trans ⟨text ++ ['.'], [], by simp⟩

theorem cut {front name : List Char} (h : WritesPath path text) (hcut : text = front ++ (spacedAs ++ name)) :
    ∃ w ∈ path, CutsThrough w.text front name := by
  induction h generalizing front name with
  | @one w text hw => exact ⟨w, List.mem_cons_self, hw.identifier_cut hcut⟩
  | @more w path text rest hw _ ih =>
    rcases cut_append_cons (by decide) hcut with ⟨before, htext, rfl⟩ | ⟨before, rfl, hrest⟩
    · exact ⟨w, List.mem_cons_self, (hw.identifier_cut htext).append_right _⟩
    · obtain ⟨u, hu, hthrough⟩ := ih hrest
      refine ⟨u, List.mem_cons_of_mem w hu, ?_⟩
      simpa using hthrough.append_left (text ++ ['.'])

private theorem infix_iff (h : WritesPath path text) :
    spacedAs <:+: text ↔ ∃ w ∈ path, spacedAs <:+: w.text := by
  constructor
  · rintro ⟨front, name, hcut⟩
    obtain ⟨w, hw, hthrough⟩ := h.cut (by rw [← hcut, List.append_assoc])
    exact ⟨w, hw, hthrough.infix_word⟩
  · rintro ⟨w, hw, hinside⟩
    exact hinside.trans (h.infix_of_mem hw)

end WritesPath

private theorem dotted_concat {path : List Identifier} (h : path ≠ []) (w : Identifier) :
    dotted (path ++ [w]) = dotted path ++ '.' :: w.text := by
  induction path with
  | nil => exact absurd rfl h
  | cons u path ih =>
    cases path with
    | nil => simp [dotted, List.intercalate_cons_cons]
    | cons v path =>
      calc dotted (u :: v :: (path ++ [w]))
          = u.text ++ '.' :: dotted (v :: path ++ [w]) := dotted_cons_cons u v (path ++ [w])
        _ = dotted (u :: v :: path) ++ '.' :: w.text := by
          rw [ih (List.cons_ne_nil _ _), dotted_cons_cons]
          simp

private theorem getLast?_squeeze_identifier (w : Identifier) :
    (Text.squeeze w.text).getLast?.any Identifier.isEnd = true := by
  rw [Text.getLast?_squeeze (Identifier.visible_of_isEnd w.isEnd_getLast?)]
  exact w.isEnd_getLast?

private theorem squeeze_identifier_ne_nil (w : Identifier) : Text.squeeze w.text ≠ [] :=
  Identifier.ne_nil_of_isEnd (getLast?_squeeze_identifier w)

private theorem getLast?_squeeze_dotted {path : List Identifier} (h : path ≠ []) :
    (Text.squeeze (dotted path)).getLast?.any Identifier.isEnd = true := by
  rcases List.eq_nil_or_concat' path with rfl | ⟨front, w, rfl⟩
  · exact absurd rfl h
  · obtain ⟨before, hbefore⟩ : ∃ before, dotted (front ++ [w]) = before ++ w.text := by
      by_cases hfront : front = []
      · exact ⟨[], by simp [hfront, dotted]⟩
      · exact ⟨dotted front ++ ['.'], by simp [dotted_concat hfront]⟩
    rw [hbefore, Text.squeeze_append, List.getLast?_append_of_ne_nil _ (squeeze_identifier_ne_nil w)]
    exact getLast?_squeeze_identifier w

private theorem simpleNameOf_dotted (path : List Identifier) (w : Identifier) :
    simpleNameOf (String.ofList (Text.squeeze (dotted (path ++ [w])))) =
      String.ofList (Text.squeeze w.text) := by
  have hdot : '.' ∉ Text.squeeze w.text := by
    intro hm
    exact w.not_mem_of_isMark (by decide) (List.mem_of_mem_filter hm)
  have hblank : Text.isBlank '.' = false := by decide
  by_cases hpath : path = []
  · have hcut : Text.cutLast? '.' (Text.squeeze w.text) = none := by
      rw [Option.eq_none_iff_forall_ne_some]
      rintro ⟨front, rest⟩ hcut
      refine hdot ?_
      rw [(Text.cutLast?_eq_some_iff.mp hcut).1]
      simp
    simp [hpath, dotted, simpleNameOf, hcut]
  · have hcut : Text.cutLast? '.' (Text.squeeze (dotted (path ++ [w]))) =
        some (Text.squeeze (dotted path), Text.squeeze w.text) := by
      rw [Text.cutLast?_eq_some_iff, dotted_concat hpath, Text.squeeze_append,
        Text.squeeze_cons_of_visible hblank]
      exact ⟨rfl, hdot⟩
    simp [simpleNameOf, hcut]

/-! ## Reading the parts -/

namespace Import

private theorem reverse_dropWhile_semicolons {cs semicolons : List Char} (hcs : cs.getLast? ≠ some ';')
    (hsemicolons : ∀ c ∈ semicolons, c = ';') :
    ((cs ++ semicolons).reverse.dropWhile (· == ';')).reverse = cs := by
  rw [List.reverse_append, List.dropWhile_append_of_pos]
  · rw [← List.head?_reverse] at hcs
    cases h : cs.reverse with
    | nil => simpa using h
    | cons c rest =>
      rw [h, List.head?_cons] at hcs
      have hc : c ≠ ';' := fun hc => hcs (by rw [hc])
      rw [List.dropWhile_cons_of_neg (by simpa using hc), ← h, List.reverse_reverse]
  · intro c hc
    simpa using hsemicolons c (List.mem_reverse.mp hc)

/-- A text that begins with the keyword is trimmed at its end only. Blanks between its body and the semicolons
stay, if there are semicolons. -/
private theorem trim_keyword_append {front core rest semicolons : List Char} (hne : core ≠ [])
    (hend : core.getLast?.any Text.isBlank = false) (hrest : ∀ c ∈ rest, Text.isBlank c = true)
    (hsemicolons : ∀ c ∈ semicolons, c = ';') :
    ∃ gap : List Char, (∀ c ∈ gap, Text.isBlank c = true) ∧
      (core ++ gap ++ semicolons).getLast?.any Text.isBlank = false ∧
      Text.trim ("import".toList ++ (front ++ core ++ rest ++ semicolons)) =
        "import".toList ++ (front ++ (core ++ gap ++ semicolons)) := by
  have hself {cs : List Char} (hcs : cs ≠ []) (h : cs.getLast?.any Text.isBlank = false) :
      Text.trim ("import".toList ++ (front ++ cs)) = "import".toList ++ (front ++ cs) := by
    apply Text.trim_eq_self
    · rw [List.head?_append_of_ne_nil _ (by decide)]
      decide
    · rwa [List.getLast?_append_of_ne_nil _ (by simp [hcs]), List.getLast?_append_of_ne_nil _ hcs]
  cases semicolons with
  | nil =>
    have hblank := Text.trim_append_of_blank (List.forall_mem_nil _) hrest
      ("import".toList ++ (front ++ core))
    rw [hself hne hend] at hblank
    refine ⟨[], List.forall_mem_nil _, by simpa using hend, ?_⟩
    simpa using hblank
  | cons c semicolons =>
    have hsemicolon : (core ++ rest ++ c :: semicolons).getLast?.any Text.isBlank = false := by
      rw [List.getLast?_append_of_ne_nil _ (List.cons_ne_nil _ _),
        List.getLast?_eq_some_getLast (List.cons_ne_nil _ _), Option.any_some,
        hsemicolons _ (List.getLast_mem _)]
      decide
    refine ⟨rest, hrest, hsemicolon, ?_⟩
    simpa using hself (by simp) hsemicolon

private theorem body?_eq {lead body semicolons back : List Char} (hlead : ∀ c ∈ lead, Text.isBlank c = true)
    (hback : ∀ c ∈ back, Text.isBlank c = true) (hsemicolons : ∀ c ∈ semicolons, c = ';')
    (hlast : (Text.squeeze body).getLast?.any (· != ';') = true) :
    body? (lead ++ ("import".toList ++ (body ++ semicolons)) ++ back) = some (Text.trim body) := by
  rw [body?, Text.trim_append_of_blank hlead hback]
  obtain ⟨hhead, hend⟩ := Text.visible_trim body
  obtain ⟨front, rest, hbody, hfront, hrest⟩ := Text.trim_spec body
  rw [← Text.getLast?_trim] at hlast
  generalize Text.trim body = core at *
  have hne : core ≠ [] := by
    rintro rfl
    simp at hlast
  obtain ⟨gap, hgap, hvisible, htrim⟩ := trim_keyword_append hne hend hrest hsemicolons
  have hgapLast : (core ++ gap).getLast? ≠ some ';' := by
    rcases List.eq_nil_or_concat' gap with rfl | ⟨gap, b, rfl⟩
    · intro h
      rw [List.append_nil] at h
      simp [h] at hlast
    · rw [← List.append_assoc, List.getLast?_concat]
      rintro ⟨rfl⟩
      exact absurd (hgap ';' (by simp)) (by decide)
  have hcoreGap := Text.trim_append_of_blank (List.forall_mem_nil _) hgap core
  have hwhole : Text.trim (front ++ (core ++ gap ++ semicolons)) = core ++ gap ++ semicolons :=
    Text.trim_of_visible hfront (by simpa [List.head?_append_of_ne_nil _ hne] using hhead) hvisible
  rw [hbody, htrim, Text.after?_eq_some_iff.mpr rfl, Option.map_some, hwhole,
    reverse_dropWhile_semicolons hgapLast hsemicolons]
  simpa [Text.trim_eq_self hhead hend] using hcoreGap

private theorem splitRename_trim {front name : List Char} (hfront : Text.squeeze front ≠ [])
    (hname : Text.squeeze name ≠ []) (h : ¬ spacedAs <:+: front ++ [' ', 'a', 's']) :
    ∃ path, splitRename (Text.trim (front ++ (spacedAs ++ name))) = (path, some (Text.trim name)) ∧
      Text.squeeze path = Text.squeeze front := by
  obtain ⟨lead, gap, hleft, hlead, hgap⟩ := Text.trim_spec front
  obtain ⟨gap', back, hright, hgap', hback⟩ := Text.trim_spec name
  obtain ⟨hhead, _⟩ := Text.visible_trim front
  obtain ⟨hhead', hlast'⟩ := Text.visible_trim name
  rw [← Text.squeeze_trim] at hfront hname
  have hsqueeze := Text.squeeze_trim front
  generalize Text.trim front = path at *
  generalize Text.trim name = word at *
  have hpath : path ≠ [] := by
    rintro rfl
    exact hfront rfl
  have hword : word ≠ [] := by
    rintro rfl
    exact hname rfl
  have hvisible : Text.trim (path ++ gap ++ (spacedAs ++ (gap' ++ word))) =
      path ++ gap ++ (spacedAs ++ (gap' ++ word)) := by
    apply Text.trim_eq_self
    · rwa [List.append_assoc, List.head?_append_of_ne_nil _ hpath]
    · rwa [← List.append_assoc, ← List.append_assoc, List.getLast?_append_of_ne_nil _ hword]
  have htrim : Text.trim (front ++ (spacedAs ++ name)) = path ++ gap ++ (spacedAs ++ (gap' ++ word)) := by
    have hblank := Text.trim_append_of_blank hlead hback (path ++ gap ++ (spacedAs ++ (gap' ++ word)))
    rw [hvisible] at hblank
    simpa [hleft, hright] using hblank
  have hcut : Text.cut? spacedAs (path ++ gap ++ (spacedAs ++ (gap' ++ word))) =
      some (path ++ gap, gap' ++ word) := by
    apply Text.cut?_of_not_infix _ (by decide)
    intro hsub
    refine h (hsub.trans ⟨lead, [], ?_⟩)
    simp [hleft, spacedAs]
  refine ⟨path ++ gap, ?_, ?_⟩
  · rw [htrim, splitRename, toList_spacedAs, hcut]
    simp only [Text.trim_of_visible hgap' hhead' hlast']
  · rw [Text.squeeze_append, Text.squeeze_of_blank hgap, List.append_nil, hsqueeze]

private theorem splitRename_of_not_infix {body : List Char} (h : ¬ spacedAs <:+: body) :
    splitRename (Text.trim body) = (Text.trim body, none) := by
  have hcut : Text.cut? spacedAs (Text.trim body) = none := by
    rw [Text.cut?_eq_none_iff]
    obtain ⟨lead, back, hbody, _⟩ := Text.trim_spec body
    exact fun hsub => h (hsub.trans ⟨lead, back, hbody.symm⟩)
  rw [splitRename, toList_spacedAs, hcut]

private theorem ofText?_star {text body front path : List Char} {rename : Option (List Char)}
    (hbody : body? text = some body) (hsplit : splitRename body = (front, rename))
    (hfront : Text.squeeze front = path ++ ['.', '*']) (hpath : path ≠ []) (line : Nat) :
    ofText? text line = some ⟨line, String.ofList path, rename.map String.ofList, true⟩ := by
  have hbefore : Text.before? ".*".toList (Text.squeeze front) = some path :=
    Text.before?_eq_some_iff.mpr hfront
  simp only [ofText?, hbody, hsplit, hbefore, Option.bind_eq_bind, Option.bind_some]
  simp [hpath]

private theorem ofText?_single {text body front path : List Char} {rename : Option (List Char)}
    (hbody : body? text = some body) (hsplit : splitRename body = (front, rename))
    (hfront : Text.squeeze front = path) (hpath : path ≠ []) (hstar : ¬ ['.', '*'] <:+ path) (line : Nat) :
    ofText? text line = some ⟨line, String.ofList path, rename.map String.ofList, false⟩ := by
  have hbefore : Text.before? ".*".toList path = none := by
    rw [Option.eq_none_iff_forall_ne_some]
    intro package hpackage
    exact hstar ⟨package, (Text.before?_eq_some_iff.mp hpackage).symm⟩
  simp only [ofText?, hbody, hsplit, hfront, hbefore, Option.bind_eq_bind, Option.bind_some]
  simp [hpath]

private theorem ofText?_of_isEnd {text body front path : List Char} {rename : Option (List Char)}
    (hbody : body? text = some body) (hsplit : splitRename body = (front, rename))
    (hfront : Text.squeeze front = path) (hlast : path.getLast?.any Identifier.isEnd = true) (line : Nat) :
    ofText? text line = some ⟨line, String.ofList path, rename.map String.ofList, false⟩ := by
  refine ofText?_single hbody hsplit hfront (Identifier.ne_nil_of_isEnd hlast) ?_ line
  rintro ⟨package, hpackage⟩
  rw [← hpackage, List.getLast?_append_of_ne_nil _ (by decide)] at hlast
  exact absurd hlast (by decide)

/-- Behind a back quote the star of a package has no place if no dot stands there. -/
private theorem ofText?_of_quoted {text body front before inner : List Char} {rename : Option (List Char)}
    (hbody : body? text = some body) (hsplit : splitRename body = (front, rename))
    (hfront : Text.squeeze front = Text.squeeze (before ++ '\x60' :: inner)) (hdot : '.' ∉ inner)
    (line : Nat) :
    ofText? text line = some ⟨line, String.ofList (Text.squeeze (before ++ '\x60' :: inner)),
      rename.map String.ofList, false⟩ := by
  have hquote : Text.squeeze (before ++ '\x60' :: inner) =
      Text.squeeze before ++ '\x60' :: Text.squeeze inner := by
    rw [Text.squeeze_append, Text.squeeze_cons_of_visible (by decide)]
  refine ofText?_single hbody hsplit hfront (by simp [hquote]) ?_ line
  rw [hquote]
  intro hstar
  rcases List.suffix_or_suffix_of_suffix hstar (List.suffix_append _ _) with h | h
  · rcases List.suffix_cons_iff.mp h with h | h
    · exact absurd (List.cons_eq_cons.mp h).1 (by decide)
    · exact hdot (List.mem_of_mem_filter (h.subset List.mem_cons_self))
  · exact absurd (h.subset List.mem_cons_self) (by decide)

end Import

/-! ## Whole imports -/

/-- What an import takes, with the text behind its path: what the path names, everything in it, or what it
names under another name. -/
inductive ImportForm where
  | single
  | star (text : List Char) (padded : Padded ['*'] text)
  | renamed (word : Identifier) (text : List Char) (padded : Padded word.text text)
      (apart : text.head?.any Text.isBlank = true)

namespace ImportForm

def text : ImportForm → List Char
  | single => []
  | star text _ => '.' :: text
  | renamed _ text _ _ => 'a' :: 's' :: text

def isStar : ImportForm → Bool
  | star _ _ => true
  | _ => false

def rename? : ImportForm → Option Identifier
  | renamed word _ _ _ => some word
  | _ => none

def tight : ImportForm → List Char
  | single => []
  | star _ _ => ['.', '*']
  | renamed word _ _ _ => 'a' :: 's' :: Text.squeeze word.text

private theorem squeeze_text (form : ImportForm) : Text.squeeze form.text = form.tight := by
  cases form with
  | single => rfl
  | star text padded =>
    rw [ImportForm.text, Text.squeeze_cons_of_visible (by decide), padded.squeeze_eq]
    rfl
  | renamed word text padded apart =>
    rw [ImportForm.text, Text.squeeze_cons_of_visible (by decide), Text.squeeze_cons_of_visible (by decide),
      padded.squeeze_eq]
    rfl

private theorem tight_of_rename? {form : ImportForm} {word : Identifier} (h : form.rename? = some word) :
    form.tight = 'a' :: 's' :: Text.squeeze word.text := by
  cases form with
  | single => simp [rename?] at h
  | star text padded => simp [rename?] at h
  | renamed other text padded apart =>
    cases h
    rfl

end ImportForm

/-- An import as it is written: blanks, the keyword, the path, what is taken of it, semicolons, blanks. -/
structure WrittenImport where
  lead : List Char
  path : List Identifier
  pathText : List Char
  form : ImportForm
  semicolons : List Char
  back : List Char
  blank_lead : ∀ c ∈ lead, Text.isBlank c = true
  writesPath : WritesPath path pathText
  apart : form.rename?.isSome = true → pathText.getLast?.any Text.isBlank = true
  only_semicolons : ∀ c ∈ semicolons, c = ';'
  blank_back : ∀ c ∈ back, Text.isBlank c = true

namespace WrittenImport

variable (w : WrittenImport)

def body : List Char := w.pathText ++ w.form.text

def text : List Char := w.lead ++ ("import".toList ++ (w.body ++ w.semicolons)) ++ w.back

def name : List Char := Text.squeeze (dotted w.path)

def toImport (line : Nat) : Import :=
  ⟨line, String.ofList w.name, w.form.rename?.map fun word => String.ofList word.text, w.form.isStar⟩

/-- The name under which what is imported is seen: the other name if there is one, else the last word of
the path. There is none if everything in a package is imported. -/
def visible? : Option String :=
  match w.form with
  | .single => w.path.getLast?.map fun word => String.ofList (Text.squeeze word.text)
  | .star _ _ => none
  | .renamed word _ _ _ => some (String.ofList word.text)

/-- If there is another name, the word `as` stands between two spaces. -/
def AsBetweenSpaces : Prop :=
  match w.form with
  | .renamed _ text _ _ => w.pathText.getLast? = some ' ' ∧ text.head? = some ' '
  | _ => True

private theorem squeeze_pathText : Text.squeeze w.pathText = w.name :=
  w.writesPath.squeeze_eq

private theorem squeeze_front {front : List Char} (h : w.pathText = front ++ [' ']) :
    Text.squeeze front = w.name := by
  have hspace : ∀ c ∈ [' '], Text.isBlank c = true := List.forall_mem_singleton.mpr (by decide)
  rw [← squeeze_pathText, h, Text.squeeze_append, Text.squeeze_of_blank hspace, List.append_nil]

private theorem getLast?_name : w.name.getLast?.any Identifier.isEnd = true :=
  getLast?_squeeze_dotted w.writesPath.ne_nil

private theorem name_ne_nil : w.name ≠ [] :=
  Identifier.ne_nil_of_isEnd w.getLast?_name

private theorem toImport_visibleName? (line : Nat) : (w.toImport line).visibleName? = w.visible? := by
  cases hform : w.form with
  | single =>
    obtain ⟨path, word, hpath⟩ := (List.eq_nil_or_concat' w.path).resolve_left w.writesPath.ne_nil
    simp [Import.visibleName?, toImport, visible?, name, hform, ImportForm.isStar, ImportForm.rename?,
      hpath, simpleNameOf_dotted]
  | star text padded =>
    simp [Import.visibleName?, toImport, visible?, hform, ImportForm.isStar]
  | renamed word text padded apart =>
    simp [Import.visibleName?, toImport, visible?, hform, ImportForm.isStar, ImportForm.rename?]

private theorem squeeze_body : Text.squeeze w.body = w.name ++ w.form.tight := by
  rw [body, Text.squeeze_append, squeeze_pathText, ImportForm.squeeze_text]

private theorem getLast?_fused (word : Identifier) :
    (w.name ++ 'a' :: 's' :: Text.squeeze word.text).getLast?.any Identifier.isEnd = true := by
  have hsplit : w.name ++ 'a' :: 's' :: Text.squeeze word.text =
      w.name ++ ['a', 's'] ++ Text.squeeze word.text := by simp
  rw [hsplit, List.getLast?_append_of_ne_nil _ (squeeze_identifier_ne_nil word)]
  exact getLast?_squeeze_identifier word

private theorem body?_text : Import.body? w.text = some (Text.trim w.body) := by
  apply Import.body?_eq w.blank_lead w.blank_back w.only_semicolons
  rw [squeeze_body]
  cases hform : w.form with
  | single => simpa [ImportForm.tight] using Identifier.no_semicolon_of_isEnd w.getLast?_name
  | star text padded =>
    rw [ImportForm.tight, List.getLast?_append_of_ne_nil _ (by decide)]
    decide
  | renamed word text padded apart => exact Identifier.no_semicolon_of_isEnd (w.getLast?_fused word)

/-- An import can be cut inside a word of its path, at the word `as` that belongs there, or inside the other
name. -/
private theorem cut_body {front name : List Char} (hcut : w.body = front ++ (spacedAs ++ name)) :
    ((∃ rest, w.pathText = front ++ (spacedAs ++ rest)) ∧ ∃ word ∈ w.path, CutsThrough word.text front name) ∨
      (∃ word ∈ w.form.rename?, w.AsBetweenSpaces ∧ w.pathText = front ++ [' '] ∧
        Text.trim name = word.text) ∨
      ∃ word ∈ w.form.rename?, (∃ between, front = w.pathText ++ 'a' :: 's' :: between) ∧
        CutsThrough word.text front name := by
  have hinside {rest back : List Char} (hpath : w.pathText = front ++ (spacedAs ++ rest))
      (hname : name = rest ++ back) : ∃ word ∈ w.path, CutsThrough word.text front name := by
    obtain ⟨word, hword, hthrough⟩ := w.writesPath.cut hpath
    exact ⟨word, hword, hname ▸ hthrough.append_right back⟩
  have hapart := w.apart
  rw [AsBetweenSpaces]
  rw [body] at hcut
  generalize w.form = form at *
  cases form with
  | single =>
    rw [ImportForm.text, List.append_nil] at hcut
    exact .inl ⟨⟨name, hcut⟩, hinside hcut (List.append_nil name).symm⟩
  | star text padded =>
    rcases cut_append_cons (by decide) hcut with ⟨rest, hpath, hname⟩ | ⟨rest, _, hstar⟩
    · exact .inl ⟨⟨rest, hpath⟩, hinside hpath hname⟩
    · have hthrough : CutsThrough ['*'] rest name := by
        refine padded.cut (by decide) ?_ hstar
        intro back _ h
        rw [List.cons_append, List.cons_prefix_cons] at h
        exact absurd h.1 (by decide)
      exact absurd hthrough.infix_word (by decide)
  | renamed word text padded apart =>
    have hlast := hapart rfl
    rcases List.eq_nil_or_concat' w.pathText with hnil | ⟨before, b, hpathText⟩
    · simp [hnil] at hlast
    cases text with
    | nil => simp at apart
    | cons d text =>
      rw [hpathText] at hinside hcut ⊢
      rcases cut_between hcut with ⟨rest, hpath, hname⟩ | ⟨rfl, rfl, rfl, rfl⟩ | ⟨rest, hfront, htext⟩
      · exact .inl ⟨⟨rest, hpath⟩, hinside hpath hname⟩
      · exact .inr (.inl ⟨word, rfl, ⟨List.getLast?_concat, rfl⟩, rfl, padded.trim_tail⟩)
      · refine .inr (.inr ⟨word, rfl, ⟨rest, hfront⟩, ?_⟩)
        have hthrough := (padded.identifier_cut htext).append_left (before ++ [b] ++ ['a', 's'])
        rw [hfront]
        simpa using hthrough

/-- An import is cut at the first `as` between spaces, wherever that is. -/
theorem ofText?_of_cut {front name : List Char} (hcut : w.body = front ++ (spacedAs ++ name))
    (hfirst : ¬ spacedAs <:+: front ++ [' ', 'a', 's']) (line : Nat) :
    Import.ofText? w.text line =
      some ⟨line, String.ofList (Text.squeeze front), some (String.ofList (Text.trim name)), false⟩ := by
  have hbody := w.body?_text
  rw [hcut] at hbody
  have hquoted {word : Identifier} (hthrough : CutsThrough word.text front name) :
      Import.ofText? w.text line =
        some ⟨line, String.ofList (Text.squeeze front), some (String.ofList (Text.trim name)), false⟩ := by
    obtain ⟨⟨before, inner, rfl, hdot⟩, hname⟩ := hthrough.quoted
    have hquote : Text.isBlank '\x60' = false := by decide
    obtain ⟨path, hsplit, hsqueeze⟩ := Import.splitRename_trim
      (by simp [Text.squeeze_append, Text.squeeze_cons_of_visible hquote])
      (List.ne_nil_of_mem (List.mem_filter.mpr ⟨hname, by simp [hquote]⟩)) hfirst
    exact Import.ofText?_of_quoted hbody hsplit hsqueeze hdot line
  rcases w.cut_body hcut with ⟨_, word, _, hthrough⟩ | ⟨word, _, _, hpath, hword⟩ | ⟨word, _, _, hthrough⟩
  · exact hquoted hthrough
  · have hname := w.squeeze_front hpath
    obtain ⟨path, hsplit, hsqueeze⟩ := Import.splitRename_trim (by rw [hname]; exact w.name_ne_nil)
      (by rw [← Text.squeeze_trim, hword]; exact squeeze_identifier_ne_nil word) hfirst
    exact Import.ofText?_of_isEnd hbody hsplit hsqueeze (by rw [hname]; exact w.getLast?_name) line
  · exact hquoted hthrough

private theorem not_infix_body (hpath : ∀ word ∈ w.path, ¬ spacedAs <:+: word.text)
    (hform : ∀ word ∈ w.form.rename?, ¬ w.AsBetweenSpaces ∧ ¬ spacedAs <:+: word.text) :
    ¬ spacedAs <:+: w.body := by
  rintro ⟨front, name, hbody⟩
  rw [List.append_assoc] at hbody
  rcases w.cut_body hbody.symm with ⟨_, word, hword, hthrough⟩ | ⟨word, hword, hspaces, _⟩ |
    ⟨word, hword, _, hthrough⟩
  · exact hpath word hword hthrough.infix_word
  · exact (hform word hword).1 hspaces
  · exact (hform word hword).2 hthrough.infix_word

private theorem ofText?_of_not_renamed (hnone : ¬ spacedAs <:+: w.body) (hrename : w.form.rename? = none)
    (line : Nat) : Import.ofText? w.text line = some (w.toImport line) := by
  have hsplit := Import.splitRename_of_not_infix hnone
  have hsqueeze : Text.squeeze (Text.trim w.body) = w.name ++ w.form.tight := by
    rw [Text.squeeze_trim, squeeze_body]
  rw [toImport, hrename]
  cases hform : w.form with
  | single =>
    rw [hform, ImportForm.tight, List.append_nil] at hsqueeze
    exact Import.ofText?_of_isEnd w.body?_text hsplit hsqueeze w.getLast?_name line
  | star text padded =>
    rw [hform] at hsqueeze
    exact Import.ofText?_star w.body?_text hsplit hsqueeze w.name_ne_nil line
  | renamed word text padded apart => simp [hform, ImportForm.rename?] at hrename

private theorem ofText?_fused (hnone : ¬ spacedAs <:+: w.body) {word : Identifier}
    (hword : word ∈ w.form.rename?) (line : Nat) : Import.ofText? w.text line =
      some ⟨line, String.ofList (w.name ++ 'a' :: 's' :: Text.squeeze word.text), none, false⟩ := by
  have hsplit := Import.splitRename_of_not_infix hnone
  have hsqueeze : Text.squeeze (Text.trim w.body) = w.name ++ 'a' :: 's' :: Text.squeeze word.text := by
    rw [Text.squeeze_trim, squeeze_body, ImportForm.tight_of_rename? hword]
  exact Import.ofText?_of_isEnd w.body?_text hsplit hsqueeze (w.getLast?_fused word) line

private theorem ofText?_of_asBetweenSpaces (hpath : ∀ word ∈ w.path, ¬ spacedAs <:+: word.text)
    {word : Identifier} (hrename : w.form.rename? = some word) (hspaces : w.AsBetweenSpaces) (line : Nat) :
    Import.ofText? w.text line = some (w.toImport line) := by
  cases hform : w.form with
  | single => simp [hform, ImportForm.rename?] at hrename
  | star text padded => simp [hform, ImportForm.rename?] at hrename
  | renamed other text padded apart =>
    rw [AsBetweenSpaces, hform] at hspaces
    obtain ⟨front, hfront⟩ := List.getLast?_eq_some_iff.mp hspaces.1
    obtain ⟨rest, rfl⟩ := List.head?_eq_some_iff.mp hspaces.2
    have hcut : w.body = front ++ (spacedAs ++ rest) := by
      simp [body, hform, ImportForm.text, hfront, spacedAs]
    have hfirst : ¬ spacedAs <:+: front ++ [' ', 'a', 's'] := by
      have hsplit : front ++ [' ', 'a', 's'] = w.pathText ++ ['a'] ++ ['s'] := by simp [hfront]
      rw [hsplit]
      refine not_infix_concat (by decide) (not_infix_concat (by decide) ?_)
      rw [w.writesPath.infix_iff]
      rintro ⟨inner, hinner, hinside⟩
      exact hpath inner hinner hinside
    rw [w.ofText?_of_cut hcut hfirst line, w.squeeze_front hfront, padded.trim_tail]
    simp [toImport, hform, ImportForm.rename?, ImportForm.isStar]

/-- An import is read as it is written only if it is cut nowhere else than at the `as` that belongs there. -/
private theorem asBetweenSpaces_of_ofText? {line : Nat}
    (h : Import.ofText? w.text line = some (w.toImport line)) :
    w.AsBetweenSpaces ∧ ¬ spacedAs <:+: w.pathText := by
  by_cases hinfix : spacedAs <:+: w.body
  · obtain ⟨front, name, hcut, hfirst⟩ := Text.exists_first_infix (by decide) hinfix
    have hread : Text.squeeze front = w.name := by
      rw [w.ofText?_of_cut hcut hfirst line, Option.some.injEq, toImport, Import.mk.injEq] at h
      exact String.ofList_injective h.2.1
    rcases w.cut_body hcut with ⟨⟨rest, hpath⟩, _⟩ | ⟨_, _, hspaces, hpath, _⟩ | ⟨_, _, ⟨between, hfront⟩, _⟩
    · rw [← squeeze_pathText, hpath] at hread
      exact absurd hread.symm (Text.squeeze_append_ne (c := 'a') (by decide) (by simp [spacedAs]))
    · refine ⟨hspaces, fun hinside => hfirst (hinside.trans ?_)⟩
      rw [hpath]
      exact ⟨[], ['a', 's'], by simp [spacedAs]⟩
    · rw [← squeeze_pathText, hfront] at hread
      exact absurd hread (Text.squeeze_append_ne (c := 'a') (by decide) (by simp))
  · refine ⟨?_, fun hinside => hinfix (hinside.trans (List.prefix_append _ _).isInfix)⟩
    cases hform : w.form with
    | single => simp [AsBetweenSpaces, hform]
    | star text padded => simp [AsBetweenSpaces, hform]
    | renamed word text padded apart =>
      have hword : word ∈ w.form.rename? := by simp [hform, ImportForm.rename?]
      rw [w.ofText?_fused hinfix hword line, Option.some.injEq, toImport, Import.mk.injEq] at h
      simp [hform, ImportForm.rename?] at h

/-- Imports are read as they are written, however they are spaced, exactly if `as` stands between two spaces
and no word of the path has it between spaces inside back quotes. If other blanks stand around it, the path
is taken together with the word and the other name. In any case the import is cut at the first `as` between
spaces, inside back quotes or not. -/
theorem ofText?_text (line : Nat) :
    (Import.ofText? w.text line = some (w.toImport line) ↔
      w.AsBetweenSpaces ∧ ∀ word ∈ w.path, ¬ " as ".toList <:+: word.text) ∧
    (w.toImport line).visibleName? = w.visible? ∧
    (¬ w.AsBetweenSpaces → (∀ word ∈ w.path, ¬ " as ".toList <:+: word.text) →
      ∀ word ∈ w.form.rename?, ¬ " as ".toList <:+: word.text → Import.ofText? w.text line =
        some ⟨line, String.ofList (w.name ++ 'a' :: 's' :: Text.squeeze word.text), none, false⟩) ∧
    ∀ front name, w.body = front ++ (" as ".toList ++ name) → ¬ " as ".toList <:+: front ++ " as".toList →
      Import.ofText? w.text line =
        some ⟨line, String.ofList (Text.squeeze front), some (String.ofList (Text.trim name)), false⟩ := by
  rw [toList_spacedAs]
  refine ⟨⟨?_, ?_⟩, w.toImport_visibleName? line, ?_, ?_⟩
  · intro hread
    obtain ⟨hspaces, hpath⟩ := w.asBetweenSpaces_of_ofText? hread
    refine ⟨hspaces, fun word hword hinside => hpath ?_⟩
    exact w.writesPath.infix_iff.mpr ⟨word, hword, hinside⟩
  · rintro ⟨hspaces, hpath⟩
    cases hrename : w.form.rename? with
    | none => exact w.ofText?_of_not_renamed (w.not_infix_body hpath (by simp [hrename])) hrename line
    | some word => exact w.ofText?_of_asBetweenSpaces hpath hrename hspaces line
  · intro hspaces hpath word hword hinside
    refine w.ofText?_fused (w.not_infix_body hpath fun other hother => ?_) hword line
    rw [Option.mem_unique hother hword]
    exact ⟨hspaces, hinside⟩
  · intro front name hcut hfirst
    exact w.ofText?_of_cut hcut hfirst line

-- Back quotes do not keep the word together.
example : Import.ofText? "import x.`run as is`".toList 1 = some ⟨1, "x.`run", some "is`", false⟩ := by
  decide +kernel

def spacedImport : WrittenImport where
  lead := [' ']
  path := [.letter 'x' (by decide), .letter 'Y' (by decide)]
  pathText := ['\t', 'x', ' '] ++ '.' :: ['\t', 'Y', ' ']
  form := .renamed (.letter 'Z' (by decide)) [' ', '\t', 'Z']
    (@Padded.blanks ['Z'] [' ', '\t'] [] (List.all_eq_true.mp (by decide)) (List.forall_mem_nil _))
    (by decide)
  semicolons := [';']
  back := ['\n']
  blank_lead := List.all_eq_true.mp (by decide)
  writesPath :=
    .more (@Padded.blanks ['x'] ['\t'] [' '] (List.all_eq_true.mp (by decide))
        (List.all_eq_true.mp (by decide)))
      (.one (@Padded.blanks ['Y'] ['\t'] [' '] (List.all_eq_true.mp (by decide))
        (List.all_eq_true.mp (by decide))))
  apart := fun _ => by decide
  only_semicolons := List.forall_mem_singleton.mpr rfl
  blank_back := List.all_eq_true.mp (by decide)

theorem ofText?_text_spacedImport :
    spacedImport.text = " import\tx .\tY as \tZ;\n".toList ∧ spacedImport.AsBetweenSpaces ∧
    (∀ word ∈ spacedImport.path, ¬ " as ".toList <:+: word.text) ∧
    Import.ofText? spacedImport.text 3 = some ⟨3, "x.Y", some "Z", false⟩ := by
  have hpath : ∀ word ∈ spacedImport.path, ¬ " as ".toList <:+: word.text := by decide +kernel
  have hspaces : spacedImport.AsBetweenSpaces := And.intro rfl rfl
  refine ⟨by decide +kernel, hspaces, hpath, ?_⟩
  rw [(spacedImport.ofText?_text 3).1.mpr ⟨hspaces, hpath⟩]
  decide +kernel

def tabbedImport : WrittenImport where
  lead := []
  path := [.letter 'x' (by decide), .letter 'Y' (by decide)]
  pathText := [' ', 'x'] ++ '.' :: ['Y', '\t']
  form := .renamed (.letter 'Z' (by decide)) ['\t', 'Z']
    (@Padded.blanks ['Z'] ['\t'] [] (List.all_eq_true.mp (by decide)) (List.forall_mem_nil _)) (by decide)
  semicolons := []
  back := []
  blank_lead := List.forall_mem_nil _
  writesPath :=
    .more (@Padded.blanks ['x'] [' '] [] (List.all_eq_true.mp (by decide)) (List.forall_mem_nil _))
      (.one (@Padded.blanks ['Y'] [] ['\t'] (List.forall_mem_nil _) (List.all_eq_true.mp (by decide))))
  apart := fun _ => by decide
  only_semicolons := List.forall_mem_nil _
  blank_back := List.forall_mem_nil _

/-- The path and the other name become one name. -/
theorem ofText?_fuses_tabbedImport :
    tabbedImport.text = "import x.Y\tas\tZ".toList ∧
    tabbedImport.toImport 7 = ⟨7, "x.Y", some "Z", false⟩ ∧ tabbedImport.visible? = some "Z" ∧
    Import.ofText? tabbedImport.text 7 = some ⟨7, "x.YasZ", none, false⟩ ∧
    Import.visibleName? ⟨7, "x.YasZ", none, false⟩ = some "YasZ" := by
  decide +kernel

end WrittenImport

end CoroutineCheck.Kotlin

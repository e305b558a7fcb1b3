import CoroutineCheck.Kotlin.Import
import CoroutineCheck.Proofs.Text.Search
import Mathlib.Data.List.Basic
import Mathlib.Data.List.TakeWhile
/-!
# Names of type references

A type reference is a dotted name with type arguments, a question mark and the arguments of a
constructor, all of them optional. Its name is read off by counting angle brackets, and blanks do not
matter. Type arguments are left out as a whole unless a function type is among them: the head of an arrow
is counted as a closing bracket, so the list is left too early, and what follows is taken for a part of
the name. Back quotes are not heeded: question and exclamation marks between them are dropped, and a
parenthesis there ends the name.
-/
namespace CoroutineCheck.Kotlin

/-! ## Identifiers -/

/-- Characters that no identifier has, not even between back quotes. -/
def isMark (c : Char) : Bool :=
  ['.', ';', ':', '<', '>', '[', ']', '/', '\\'].contains c

def isPlain (c : Char) : Bool :=
  !(Text.isBlank c || isMark c || ['(', ')', '?', '!', '*', ',', '&', '-', '@', '\x60'].contains c)

/-- An identifier, plain or between back quotes. The word `as` is none. -/
structure Identifier where
  text : List Char
  ne_nil : text ≠ []
  unmarked : text.any isMark = false
  plain_or_quoted : text.all isPlain = true ∨ text.head? = some '\x60' ∧ text.getLast? = some '\x60'
  not_as : text ≠ ['a', 's']

def Identifier.plain (text : List Char) (ne_nil : text ≠ []) (all_plain : text.all isPlain = true)
    (not_as : text ≠ ['a', 's']) : Identifier where
  text := text
  ne_nil := ne_nil
  unmarked := by
    rw [List.any_eq_false]
    intro c hc hmark
    simpa [isPlain, hmark] using List.all_eq_true.mp all_plain c hc
  plain_or_quoted := .inl all_plain
  not_as := not_as

def Identifier.letter (c : Char) (h : isPlain c = true) : Identifier :=
  .plain [c] (by simp) (by simpa using h) (by simp)

theorem Identifier.not_mem_of_isMark (w : Identifier) {c : Char} (hc : isMark c = true) : c ∉ w.text := by
  intro hm
  have hunmarked := List.any_eq_false.mp w.unmarked c hm
  exact hunmarked hc

def dotted (path : List Identifier) : List Char :=
  ['.'].intercalate (path.map (·.text))

theorem dotted_cons_cons (w u : Identifier) (path : List Identifier) :
    dotted (w :: u :: path) = w.text ++ '.' :: dotted (u :: path) := by
  simp [dotted, List.intercalate_cons_cons]

/-! ## Types -/

inductive TypeSyntax where
  | name (word : Identifier)
  | applied (head : TypeSyntax) (arguments : List TypeSyntax)
  /-- A type in another one, or a function type with its receiver. -/
  | member (outer inner : TypeSyntax)
  | nullable (type : TypeSyntax)
  /-- A projection or another type with a modifier. -/
  | modified (word : Identifier) (type : TypeSyntax)
  | star
  | function (parameters : List TypeSyntax) (result : TypeSyntax)
  | labelled (label : Identifier) (type : TypeSyntax)
  | grouped (type : TypeSyntax)

namespace TypeSyntax

mutual

/-- The text of a type, with a blank only where it is needed. -/
def text : TypeSyntax → List Char
  | name word => word.text
  | applied head arguments => text head ++ '<' :: (listText arguments ++ ['>'])
  | member outer inner => text outer ++ '.' :: text inner
  | nullable type => text type ++ ['?']
  | modified word type => word.text ++ ' ' :: text type
  | star => ['*']
  | function parameters result => '(' :: (listText parameters ++ ')' :: '-' :: '>' :: text result)
  | labelled label type => label.text ++ ':' :: text type
  | grouped type => '(' :: (text type ++ [')'])

def listText : List TypeSyntax → List Char
  | [] => []
  | [type] => text type
  | type :: types => text type ++ ',' :: listText types

end

mutual

def arrows : TypeSyntax → Nat
  | name _ => 0
  | applied head arguments => arrows head + listArrows arguments
  | member outer inner => arrows outer + arrows inner
  | nullable type => arrows type
  | modified _ type => arrows type
  | star => 0
  | function parameters result => listArrows parameters + arrows result + 1
  | labelled _ type => arrows type
  | grouped type => arrows type

def listArrows : List TypeSyntax → Nat
  | [] => 0
  | type :: types => arrows type + listArrows types

end

end TypeSyntax

/-- A reference to a type: its name, its type arguments if there are any, whether a question mark
follows, and the text behind the parenthesis of a constructor's arguments. -/
structure TypeReference where
  path : List Identifier
  arguments : List TypeSyntax
  nullable : Bool
  call : Option (List Char)

namespace TypeReference

def ending (r : TypeReference) : List Char :=
  (if r.nullable then ['?'] else []) ++ r.call.elim [] ('(' :: ·)

def text (r : TypeReference) : List Char :=
  dotted r.path ++
    ((if r.arguments.isEmpty then [] else '<' :: (TypeSyntax.listText r.arguments ++ ['>'])) ++ r.ending)

def name (r : TypeReference) : String :=
  String.ofList (Text.squeeze (dotted r.path))

/-- What is kept of a name: the characters in front of a parenthesis, but no blanks and no question and
exclamation marks. -/
def kept (cs : List Char) : List Char :=
  (cs.takeWhile (· != '(')).filter fun c => !(Text.isBlank c || c == '?' || c == '!')

/-- The dotted name as far as it is read. It is the whole name unless back quotes hold a parenthesis, a
question mark or an exclamation mark. -/
def readName (r : TypeReference) : String :=
  String.ofList (kept (dotted r.path))

end TypeReference

/-! ## Angle brackets -/

/-- The texts that close `depth + 1` brackets, the last one with their last character. The head of an
arrow counts as a closing bracket. -/
inductive Closes : (depth : Nat) → List Char → Prop where
  | last : Closes 0 ['>']
  | closing {depth : Nat} {cs : List Char} : Closes depth cs → Closes (depth + 1) ('>' :: cs)
  | opening {depth : Nat} {cs : List Char} : Closes (depth + 1) cs → Closes depth ('<' :: cs)
  | other {depth : Nat} {c : Char} {cs : List Char} : c ≠ '<' → c ≠ '>' → Closes depth cs →
      Closes depth (c :: cs)

private theorem Closes.typeNameFrom_append {depth : Nat} {cs : List Char} (h : Closes depth cs)
    (rest : List Char) : typeNameFrom (depth + 1) (cs ++ rest) = typeNameFrom 0 rest := by
  induction h with
  | last => rfl
  | closing _ ih => exact ih
  | opening _ ih => exact ih
  | other hopen hclose _ ih => simpa [typeNameFrom, hopen, hclose] using ih

private theorem Closes.typeName_append {cs : List Char} (h : Closes 0 cs) (rest : List Char) :
    typeName ('<' :: (cs ++ rest)) = typeName rest := by
  simp only [typeName, typeNameFrom]
  rw [h.typeNameFrom_append]

private theorem exists_closes {depth : Nat} {cs : List Char} (h : cs.count '<' + depth < cs.count '>') :
    ∃ front rest, cs = front ++ rest ∧ Closes depth front := by
  induction cs generalizing depth with
  | nil => simp at h
  | cons c cs ih =>
    by_cases hopen : c = '<'
    · subst hopen
      have hmore : cs.count '<' + (depth + 1) < cs.count '>' := by
        simp at h
        omega
      obtain ⟨front, rest, rfl, hfront⟩ := ih hmore
      exact ⟨'<' :: front, rest, rfl, .opening hfront⟩
    · by_cases hclose : c = '>'
      · subst hclose
        cases depth with
        | zero => exact ⟨['>'], cs, rfl, .last⟩
        | succ depth =>
          have hless : cs.count '<' + depth < cs.count '>' := by
            simp at h
            omega
          obtain ⟨front, rest, rfl, hfront⟩ := ih hless
          exact ⟨'>' :: front, rest, rfl, .closing hfront⟩
      · have hsame : cs.count '<' + depth < cs.count '>' := by
          simpa [List.count_cons, hopen, hclose] using h
        obtain ⟨front, rest, rfl, hfront⟩ := ih hsame
        exact ⟨c :: front, rest, rfl, .other hopen hclose hfront⟩

/-- Texts that close the brackets they open, and no others. -/
def Balanced (cs : List Char) : Prop :=
  ∀ depth rest, Closes depth rest → Closes depth (cs ++ rest)

namespace Balanced

variable {cs ds : List Char}

theorem nil : Balanced [] :=
  fun _ _ h => h

theorem append (hcs : Balanced cs) (hds : Balanced ds) : Balanced (cs ++ ds) := by
  intro depth rest h
  rw [List.append_assoc]
  exact hcs depth _ (hds depth rest h)

theorem cons {c : Char} (hopen : c ≠ '<') (hclose : c ≠ '>') (h : Balanced cs) : Balanced (c :: cs) :=
  fun depth rest hrest => .other hopen hclose (h depth rest hrest)

private theorem brackets (h : Balanced cs) : Balanced ('<' :: (cs ++ ['>'])) := by
  intro depth rest hrest
  have hinner := h (depth + 1) ('>' :: rest) (.closing hrest)
  simpa using Closes.opening hinner

theorem identifier (w : Identifier) : Balanced w.text := by
  have hopen : '<' ∉ w.text := w.not_mem_of_isMark (by decide)
  have hclose : '>' ∉ w.text := w.not_mem_of_isMark (by decide)
  generalize w.text = cs at hopen hclose
  induction cs with
  | nil => exact .nil
  | cons c cs ih =>
    rw [List.mem_cons, not_or] at hopen hclose
    exact .cons (Ne.symm hopen.1) (Ne.symm hclose.1) (ih hopen.2 hclose.2)

end Balanced

namespace TypeSyntax

private theorem listText_cons_cons (t u : TypeSyntax) (ts : List TypeSyntax) :
    listText (t :: u :: ts) = t.text ++ ',' :: listText (u :: ts) := by
  simp [listText]

mutual

private theorem balanced_text : (t : TypeSyntax) → t.arrows = 0 → Balanced t.text
  | name word => fun _ => .identifier word
  | applied head arguments => by
    intro h
    simp only [arrows, Nat.add_eq_zero_iff] at h
    rw [text]
    exact (balanced_text head h.1).append (balanced_listText arguments h.2).brackets
  | member outer inner => by
    intro h
    simp only [arrows, Nat.add_eq_zero_iff] at h
    rw [text]
    exact (balanced_text outer h.1).append (.cons (by decide) (by decide) (balanced_text inner h.2))
  | nullable type => by
    intro h
    rw [text]
    exact (balanced_text type h).append (.cons (by decide) (by decide) .nil)
  | modified word type => by
    intro h
    rw [text]
    exact (Balanced.identifier word).append (.cons (by decide) (by decide) (balanced_text type h))
  | star => fun _ => .cons (by decide) (by decide) .nil
  | function parameters result => by
    intro h
    simp [arrows] at h
  | labelled label type => by
    intro h
    rw [text]
    exact (Balanced.identifier label).append (.cons (by decide) (by decide) (balanced_text type h))
  | grouped type => by
    intro h
    rw [text]
    exact .cons (by decide) (by decide)
      ((balanced_text type h).append (.cons (by decide) (by decide) .nil))

private theorem balanced_listText : (ts : List TypeSyntax) → listArrows ts = 0 → Balanced (listText ts)
  | [] => fun _ => .nil
  | [t] => by
    intro h
    simp only [listArrows, Nat.add_zero] at h
    rw [listText]
    exact balanced_text t h
  | t :: u :: ts => by
    intro h
    rw [listArrows, Nat.add_eq_zero_iff] at h
    rw [listText_cons_cons]
    exact (balanced_text t h.1).append (.cons (by decide) (by decide) (balanced_listText (u :: ts) h.2))

end

private theorem count_identifier (w : Identifier) : w.text.count '<' = 0 ∧ w.text.count '>' = 0 := by
  simp only [List.count_eq_zero]
  exact ⟨w.not_mem_of_isMark (by decide), w.not_mem_of_isMark (by decide)⟩

mutual

private theorem count_text : (t : TypeSyntax) → t.text.count '>' = t.text.count '<' + t.arrows
  | name word => by simp [text, arrows, count_identifier word]
  | applied head arguments => by
    have hhead := count_text head
    have harguments := count_listText arguments
    simp [text, arrows]
    omega
  | member outer inner => by
    have houter := count_text outer
    have hinner := count_text inner
    simp [text, arrows]
    omega
  | nullable type => by simp [text, arrows, count_text type]
  | modified word type => by simp [text, arrows, count_identifier word, count_text type]
  | star => rfl
  | function parameters result => by
    have hparameters := count_listText parameters
    have hresult := count_text result
    simp [text, arrows]
    omega
  | labelled label type => by simp [text, arrows, count_identifier label, count_text type]
  | grouped type => by simp [text, arrows, count_text type]

private theorem count_listText : (ts : List TypeSyntax) →
    (listText ts).count '>' = (listText ts).count '<' + listArrows ts
  | [] => rfl
  | [t] => by simp [listText, listArrows, count_text t]
  | t :: u :: ts => by
    have ht := count_text t
    have hts := count_listText (u :: ts)
    rw [listText_cons_cons, listArrows]
    simp
    omega

end

end TypeSyntax

/-! ## Blanks and names -/

/-- Characters with a meaning outside type arguments. -/
def isSpecial (c : Char) : Bool := ['<', '>', '(', '?', '!'].contains c

private theorem not_isBlank_of_isSpecial {c : Char} (hc : isSpecial c = true) : Text.isBlank c = false := by
  simp only [isSpecial, List.contains_eq_mem, List.mem_cons, List.not_mem_nil, or_false,
    decide_eq_true_eq] at hc
  rcases hc with rfl | rfl | rfl | rfl | rfl <;> decide

private theorem typeNameFrom_squeeze (depth : Nat) (cs : List Char) :
    typeNameFrom depth (Text.squeeze cs) = typeNameFrom depth cs := by
  induction cs generalizing depth with
  | nil => rfl
  | cons c cs ih =>
    cases hblank : Text.isBlank c with
    | true =>
      have hplain : isSpecial c = false := by
        by_contra hspecial
        simp [not_isBlank_of_isSpecial (by simpa using hspecial)] at hblank
      simp [isSpecial] at hplain
      rw [Text.squeeze_cons_of_blank hblank, ih]
      cases depth with
      | zero => simp [typeNameFrom, hplain, hblank]
      | succ depth => simp [typeNameFrom, hplain]
    | false =>
      rw [Text.squeeze_cons_of_visible hblank]
      by_cases hopen : c = '<'
      · subst hopen
        exact ih (depth + 1)
      · by_cases hclose : c = '>'
        · subst hclose
          exact ih (depth - 1)
        · simp [typeNameFrom, ih]

private theorem typeName_eq_of_squeeze {text text' : List Char} (h : Text.squeeze text = Text.squeeze text') :
    typeName text = typeName text' := by
  rw [typeName, typeName, ← typeNameFrom_squeeze 0 text, h, typeNameFrom_squeeze]

namespace TypeReference

private theorem kept_cons {c : Char} (hc : c ≠ '(') (cs : List Char) :
    kept (c :: cs) = if Text.isBlank c || c == '?' || c == '!' then kept cs else c :: kept cs := by
  rw [kept, List.takeWhile_cons_of_pos (by simpa using hc), List.filter_cons]
  cases (Text.isBlank c || c == '?' || c == '!') <;> rfl

private theorem kept_eq_squeeze_iff {cs : List Char} :
    kept cs = Text.squeeze cs ↔ ∀ c ∈ cs, c ≠ '(' ∧ c ≠ '?' ∧ c ≠ '!' := by
  constructor
  · intro heq c hc
    by_cases hblank : Text.isBlank c = true
    · refine ⟨?_, ?_, ?_⟩ <;> rintro rfl <;> exact absurd hblank (by decide)
    · have hkept : c ∈ kept cs := by
        rw [heq]
        exact List.mem_filter.mpr ⟨hc, by simpa using hblank⟩
      obtain ⟨hfront, hmark⟩ := List.mem_filter.mp hkept
      have hcall := List.mem_takeWhile_imp hfront
      simp_all
  · intro h
    have hfront : cs.takeWhile (· != '(') = cs := by
      rw [List.takeWhile_eq_self_iff]
      intro c hc
      simpa using (h c hc).1
    rw [kept, hfront]
    apply List.filter_congr
    intro c hc
    obtain ⟨-, hquestion, hexclamation⟩ := h c hc
    simp [beq_eq_false_iff_ne.mpr hquestion, beq_eq_false_iff_ne.mpr hexclamation]

end TypeReference

/-- A text without angle brackets is kept as far as its first parenthesis, and reading goes on behind it
only if there is none. -/
theorem typeNameFrom_append {cs : List Char} (hopen : '<' ∉ cs) (hclose : '>' ∉ cs) (rest : List Char) :
    typeNameFrom 0 (cs ++ rest) =
      TypeReference.kept cs ++ if '(' ∈ cs then [] else typeNameFrom 0 rest := by
  induction cs with
  | nil => rfl
  | cons c cs ih =>
    rw [List.mem_cons, not_or] at hopen hclose
    by_cases hcall : c = '('
    · subst hcall
      simp [typeNameFrom, TypeReference.kept]
    · have hmem : '(' ∈ c :: cs ↔ '(' ∈ cs := by simp [Ne.symm hcall]
      rw [TypeReference.kept_cons hcall, if_congr hmem rfl rfl]
      cases hmark : (Text.isBlank c || c == '?' || c == '!') with
      | true => simp [typeNameFrom, Ne.symm hopen.1, Ne.symm hclose.1, hcall, hmark, ih hopen.2 hclose.2]
      | false => simp [typeNameFrom, Ne.symm hopen.1, Ne.symm hclose.1, hcall, hmark, ih hopen.2 hclose.2]

private theorem mem_dotted {path : List Identifier} {c : Char} (hc : c ≠ '.') :
    c ∈ dotted path ↔ ∃ w ∈ path, c ∈ w.text := by
  induction path with
  | nil => simp [dotted]
  | cons w path ih =>
    cases path with
    | nil => simp [dotted]
    | cons u path =>
      rw [dotted_cons_cons, List.mem_append, List.mem_cons, ih]
      simp [hc]

private theorem not_mem_dotted_of_isMark {path : List Identifier} {c : Char} (hc : isMark c = true)
    (hdot : c ≠ '.') : c ∉ dotted path := by
  rw [mem_dotted hdot]
  rintro ⟨w, _, hw⟩
  exact w.not_mem_of_isMark hc hw

private theorem TypeReference.readName_eq_name_iff (r : TypeReference) :
    r.readName = r.name ↔ ∀ w ∈ r.path, w.text.any isSpecial = false := by
  rw [readName, name, String.ofList_inj, kept_eq_squeeze_iff]
  constructor
  · intro h w hw
    rw [List.any_eq_false]
    intro c hc hspecial
    have hdot : c ≠ '.' := by
      rintro rfl
      exact absurd hspecial (by decide)
    obtain ⟨hcall, hquestion, hexclamation⟩ := h c ((mem_dotted hdot).mpr ⟨w, hw, hc⟩)
    have hopen := w.not_mem_of_isMark (c := '<') (by decide)
    have hclose := w.not_mem_of_isMark (c := '>') (by decide)
    simp [isSpecial, hcall, hquestion, hexclamation] at hspecial
    rcases hspecial with rfl | rfl
    · exact hopen hc
    · exact hclose hc
  · intro h c hc
    by_cases hdot : c = '.'
    · subst hdot
      decide
    · obtain ⟨w, hw, hcw⟩ := (mem_dotted hdot).mp hc
      have hplain := List.any_eq_false.mp (h w hw) c hcw
      simp [isSpecial] at hplain
      exact hplain.2.2

private theorem typeName_dotted_append (path : List Identifier) (rest : List Char) :
    typeName (dotted path ++ rest) = String.ofList (TypeReference.kept (dotted path)) ++
      if '(' ∈ dotted path then "" else typeName rest := by
  rw [typeName, typeNameFrom_append (not_mem_dotted_of_isMark (by decide) (by decide))
    (not_mem_dotted_of_isMark (by decide) (by decide)), String.ofList_append]
  split <;> rfl

private theorem typeName_ending (r : TypeReference) : typeName r.ending = "" := by
  have hnone : typeNameFrom 0 r.ending = [] := by
    cases hn : r.nullable <;> cases hc : r.call <;> simp [TypeReference.ending, hn, hc, typeNameFrom]
  rw [typeName, hnone, String.ofList_nil]

/-- The name of a type reference, however it is spaced. Without function types among the type arguments it
is the dotted name, as far as that is read, and so it is if the name itself has a parenthesis. Else the
argument list is left where its arrows, counted as closing brackets, have closed what was open, and what is
written from there on is taken for a part of the name. The dotted name is read as a whole exactly if no
word of it has a special character. -/
theorem typeName_of_reference {r : TypeReference} {text : List Char}
    (htext : Text.squeeze text = Text.squeeze r.text) :
    (TypeSyntax.listArrows r.arguments = 0 ∨ (∃ w ∈ r.path, '(' ∈ w.text) → typeName text = r.readName) ∧
    (0 < TypeSyntax.listArrows r.arguments → (∀ w ∈ r.path, '(' ∉ w.text) → ∃ front rest,
      TypeSyntax.listText r.arguments = front ++ rest ∧ Closes 0 front ∧
        typeName text = r.readName ++ typeName (rest ++ '>' :: r.ending)) ∧
    (r.readName = r.name ↔ ∀ w ∈ r.path, w.text.any isSpecial = false) := by
  have hcall : '(' ∈ dotted r.path ↔ ∃ w ∈ r.path, '(' ∈ w.text := mem_dotted (by decide)
  have hread (rest : List Char) (hr : r.text = dotted r.path ++ rest) :
      typeName text = r.readName ++ if '(' ∈ dotted r.path then "" else typeName rest := by
    rw [typeName_eq_of_squeeze htext, hr, typeName_dotted_append, TypeReference.readName]
  refine ⟨?_, ?_, r.readName_eq_name_iff⟩
  · rintro (harrows | hword)
    · by_cases hnone : r.arguments = []
      · have hr : r.text = dotted r.path ++ r.ending := by simp [TypeReference.text, hnone]
        rw [hread _ hr, typeName_ending, ite_self, String.append_empty]
      · have hclosed : Closes 0 (TypeSyntax.listText r.arguments ++ ['>']) :=
          TypeSyntax.balanced_listText r.arguments harrows 0 ['>'] .last
        have hr : r.text =
            dotted r.path ++ '<' :: (TypeSyntax.listText r.arguments ++ ['>'] ++ r.ending) := by
          simp [TypeReference.text, hnone]
        rw [hread _ hr, hclosed.typeName_append, typeName_ending, ite_self, String.append_empty]
    · rw [hread _ rfl, if_pos (hcall.mpr hword), String.append_empty]
  · intro harrows hpath
    have hquiet : '(' ∉ dotted r.path := by
      rw [hcall]
      rintro ⟨w, hw, hc⟩
      exact hpath w hw hc
    have hnone : r.arguments ≠ [] := by
      intro hnil
      simp [hnil, TypeSyntax.listArrows] at harrows
    have hmore : (TypeSyntax.listText r.arguments).count '<' + 0 <
        (TypeSyntax.listText r.arguments).count '>' := by
      rw [TypeSyntax.count_listText]
      omega
    obtain ⟨front, rest, hsplit, hfront⟩ := exists_closes hmore
    have hr : r.text = dotted r.path ++ '<' :: (front ++ (rest ++ '>' :: r.ending)) := by
      simp [TypeReference.text, hnone, hsplit]
    refine ⟨front, rest, hsplit, hfront, ?_⟩
    rw [hread _ hr, if_neg hquiet, hfront.typeName_append]

-- A question mark between back quotes is dropped, and a parenthesis there ends the name.
example : typeName "`is?`".toList = "`is`" ∧ typeName "`a(b)`<C>".toList = "`a" := by
  decide +kernel

def nestedReference : TypeReference where
  path := [.letter 'a' (by decide), .letter 'B' (by decide)]
  arguments := [
    .applied (.name (.letter 'C' (by decide))) [
      .modified (.plain ['i', 'n'] (by decide) (by decide) (by decide))
        (.nullable (.name (.letter 'D' (by decide)))),
      .star],
    .name (.letter 'E' (by decide))]
  nullable := true
  call := some ['x', ')']

theorem typeName_of_reference_nestedReference :
    Text.squeeze "a . B < C<in D?, *> , E >? (x)".toList = Text.squeeze nestedReference.text ∧
    TypeSyntax.listArrows nestedReference.arguments = 0 ∧
    (∀ w ∈ nestedReference.path, w.text.any isSpecial = false) ∧
    typeName "a . B < C<in D?, *> , E >? (x)".toList = nestedReference.name ∧
    nestedReference.name = "a.B" := by
  have htext : Text.squeeze "a . B < C<in D?, *> , E >? (x)".toList =
      Text.squeeze nestedReference.text := by decide +kernel
  have hpath : ∀ w ∈ nestedReference.path, w.text.any isSpecial = false := by decide +kernel
  obtain ⟨hread, -, hwhole⟩ := typeName_of_reference htext
  exact ⟨htext, rfl, hpath, (hread (.inl rfl)).trans (hwhole.mpr hpath), by decide +kernel⟩

def functionReference : TypeReference where
  path := [.plain ['M', 'a', 'p'] (by decide) (by decide) (by decide)]
  arguments := [
    .function [.name (.letter 'A' (by decide))]
      (.name (.letter 'B' (by decide))),
    .name (.letter 'C' (by decide))]
  nullable := false
  call := none

/-- What follows the arrow becomes a part of the name. -/
theorem typeName_takes_arguments :
    Text.squeeze "Map<(A) -> B, C>".toList = Text.squeeze functionReference.text ∧
    functionReference.name = "Map" ∧ typeName "Map<(A) -> B, C>".toList = "MapB,C" := by
  decide +kernel

end CoroutineCheck.Kotlin

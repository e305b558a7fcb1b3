import CoroutineCheck.Gradle.Coordinate
import CoroutineCheck.Proofs.Path.Components
import CoroutineCheck.Proofs.Text.Search
/-!
# Coordinates in build scripts

A build script is made of code, quoted literals and comments. Its quotes are paired from the front, and
comments are not told apart from code. So as long as every comment closes the quotes that it opens, the
coordinates of a script are those of its literals and of the texts that comments quote. A comment that
leaves a quote open, such as one with an apostrophe, hides all that stands before the next quote of
that kind.
-/
namespace CoroutineCheck.Gradle

/-! ## Coordinates -/

inductive Coordinate : List Char → Prop where
  | library {group name : List Char} : isName group = true → isName name = true →
      Coordinate (group ++ ':' :: name)
  | versioned {group name version : List Char} : isName group = true → isName name = true →
      isVersion version = true → ':' ∉ version → Coordinate (group ++ ':' :: (name ++ ':' :: version))

private theorem not_mem_of_isName {cs : List Char} (h : isName cs = true) : ':' ∉ cs ∧ '\n' ∉ cs := by
  simp only [isName, Bool.and_eq_true, List.all_eq_true] at h
  constructor
  · intro hm
    exact absurd (h.2 _ hm) (by decide)
  · intro hm
    exact absurd (h.2 _ hm) (by decide)

private theorem isCoordinate_iff {text : List Char} : isCoordinate text = true ↔ Coordinate text := by
  constructor
  · intro h
    have htext : [':'].intercalate (Text.pieces ':' text) = text := Text.intercalate_pieces text
    have hcolon : ∀ p ∈ Text.pieces ':' text, ':' ∉ p := Text.sep_not_mem_pieces text
    unfold isCoordinate at h
    split at h
    case h_1 group name hpieces =>
      rw [hpieces] at htext
      rw [Bool.and_eq_true] at h
      have hlibrary := Coordinate.library h.1 h.2
      simpa [← htext] using hlibrary
    case h_2 group name version hpieces =>
      rw [hpieces] at htext hcolon
      simp only [Bool.and_eq_true] at h
      have hversioned := Coordinate.versioned h.1.1 h.1.2 h.2 (hcolon version (by simp))
      simpa [← htext] using hversioned
    case h_3 => cases h
  · intro h
    cases h with
    | library hgroup hname =>
      simp [isCoordinate, Text.pieces_append_sep, Text.pieces_of_not_mem (not_mem_of_isName hgroup).1,
        Text.pieces_of_not_mem (not_mem_of_isName hname).1, hgroup, hname]
    | versioned hgroup hname hversion hcolon =>
      simp [isCoordinate, Text.pieces_append_sep, Text.pieces_of_not_mem (not_mem_of_isName hgroup).1,
        Text.pieces_of_not_mem (not_mem_of_isName hname).1, Text.pieces_of_not_mem hcolon, hgroup, hname,
        hversion]

instance (text : List Char) : Decidable (Coordinate text) :=
  decidable_of_iff _ isCoordinate_iff

private theorem Coordinate.not_mem_newline {text : List Char} (h : Coordinate text) : '\n' ∉ text := by
  have hblank : Text.isBlank '\n' = true := by decide
  cases h with
  | library hgroup hname => simp [not_mem_of_isName hgroup, not_mem_of_isName hname]
  | versioned hgroup hname hversion _ =>
    simp only [isVersion, Bool.and_eq_true, List.all_eq_true] at hversion
    have hline : '\n' ∉ _ := fun hm => absurd (hversion.2 _ hm) (by simp [hblank])
    simp [not_mem_of_isName hgroup, not_mem_of_isName hname, hline]

def coordinatesAmong (texts : List (List Char)) : List String :=
  (texts.filter (Coordinate ·)).map String.ofList

private theorem scriptCoordinates_eq (script : String) :
    scriptCoordinates script = coordinatesAmong (literals script.toList) := by
  unfold scriptCoordinates coordinatesAmong
  congr 1
  apply List.filter_congr
  intro text _
  rw [Bool.eq_iff_iff, isCoordinate_iff, decide_eq_true_iff]

private theorem coordinatesAmong_append (xs ys : List (List Char)) :
    coordinatesAmong (xs ++ ys) = coordinatesAmong xs ++ coordinatesAmong ys := by
  simp [coordinatesAmong]

/-! ## Quotes -/

def isQuote (c : Char) : Bool := c == '"' || c == '\''

/-- The texts that close all quotes they open, with what stands between the quotes. -/
inductive Quotes : (text : List Char) → (quoted : List (List Char)) → Prop where
  | nil : Quotes [] []
  | plain {c : Char} {text : List Char} {quoted : List (List Char)} : isQuote c = false →
      Quotes text quoted → Quotes (c :: text) quoted
  | literal {quote : Char} {content text : List Char} {quoted : List (List Char)} :
      isQuote quote = true → quote ∉ content → Quotes text quoted →
      Quotes (quote :: (content ++ quote :: text)) (content :: quoted)

namespace Quotes

variable {text text' : List Char} {quoted quoted' : List (List Char)}

theorem append (h : Quotes text quoted) (h' : Quotes text' quoted') :
    Quotes (text ++ text') (quoted ++ quoted') := by
  induction h with
  | nil => exact h'
  | plain hc _ ih => exact .plain hc ih
  | literal hquote hcontent _ ih => simpa using Quotes.literal hquote hcontent ih

private theorem of_quoteless (h : text.any isQuote = false) : Quotes text [] := by
  induction text with
  | nil => exact .nil
  | cons c text ih =>
    rw [List.any_cons, Bool.or_eq_false_iff] at h
    exact .plain h.1 (ih h.2)

end Quotes

section Scan

variable {quote : Char} {taken content : List Char}

private theorem literalsFrom_plain {c : Char} (hc : isQuote c = false) (rest : List Char) :
    literalsFrom none (c :: rest) = literalsFrom none rest := by
  have hplain : (c == '"' || c == '\'') = false := hc
  simp [literalsFrom, hplain]

private theorem literalsFrom_opens (hquote : isQuote quote = true) (rest : List Char) :
    literalsFrom none (quote :: rest) = literalsFrom (some (quote, [])) rest := by
  have hopens : (quote == '"' || quote == '\'') = true := hquote
  simp [literalsFrom, hopens]

private theorem literalsFrom_takes (hcontent : quote ∉ content) (rest : List Char) :
    literalsFrom (some (quote, taken)) (content ++ rest) =
      literalsFrom (some (quote, content.reverse ++ taken)) rest := by
  induction content generalizing taken with
  | nil => rfl
  | cons c content ih =>
    rw [List.mem_cons, not_or] at hcontent
    have hc : (c == quote) = false := beq_eq_false_iff_ne.mpr (Ne.symm hcontent.1)
    simp [literalsFrom, hc, ih hcontent.2]

private theorem literalsFrom_closed (hcontent : quote ∉ content) (rest : List Char) :
    literalsFrom (some (quote, taken)) (content ++ quote :: rest) =
      (taken.reverse ++ content) :: literalsFrom none rest := by
  rw [literalsFrom_takes hcontent]
  simp [literalsFrom]

private theorem literalsFrom_unclosed (hcontent : quote ∉ content) :
    literalsFrom (some (quote, taken)) content = [] := by
  rw [← List.append_nil content, literalsFrom_takes hcontent]
  rfl

private theorem Quotes.literalsFrom_append {text : List Char} {quoted : List (List Char)}
    (h : Quotes text quoted) (rest : List Char) :
    literalsFrom none (text ++ rest) = quoted ++ literalsFrom none rest := by
  induction h with
  | nil => rfl
  | plain hc _ ih => rw [List.cons_append, literalsFrom_plain hc, ih]
  | literal hquote hcontent _ ih =>
    rw [List.cons_append, literalsFrom_opens hquote, List.append_assoc, List.cons_append,
      literalsFrom_closed hcontent, ih]
    rfl

private theorem Quotes.literals_eq {text : List Char} {quoted : List (List Char)} (h : Quotes text quoted) :
    literals text = quoted := by
  have happend := h.literalsFrom_append []
  simpa [literals, literalsFrom] using happend

private theorem Quotes.literals_unclosed {text : List Char} {quoted : List (List Char)}
    (h : Quotes text quoted) (hquote : isQuote quote = true) (hcontent : quote ∉ content) :
    literals (text ++ quote :: content) = quoted := by
  rw [literals, h.literalsFrom_append, literalsFrom_opens hquote, literalsFrom_unclosed hcontent,
    List.append_nil]

end Scan

/-- A text closes all its quotes, or it closes them up to one that it leaves open. -/
private theorem quotes_or_unclosed (text : List Char) :
    (∃ quoted, Quotes text quoted) ∨
      ∃ front quote content quoted, text = front ++ quote :: content ∧ Quotes front quoted ∧
        isQuote quote = true ∧ quote ∉ content := by
  -- A literal is passed as a whole, so the induction is on the length.
  induction hlen : text.length using Nat.strongRecOn generalizing text with
  | ind n ih =>
    cases text with
    | nil => exact .inl ⟨[], .nil⟩
    | cons c rest =>
      cases hc : isQuote c with
      | false =>
        rcases ih rest.length (by simp [← hlen]) rest rfl with
          ⟨quoted, h⟩ | ⟨front, quote, content, quoted, rfl, h, hquote, hcontent⟩
        · exact .inl ⟨quoted, .plain hc h⟩
        · exact .inr ⟨c :: front, quote, content, quoted, rfl, .plain hc h, hquote, hcontent⟩
      | true =>
        by_cases hm : c ∈ rest
        · obtain ⟨literal, back, rfl, hliteral⟩ := List.eq_append_cons_of_mem hm
          rcases ih back.length (by simp [← hlen]; omega) back rfl with
            ⟨quoted, h⟩ | ⟨front, quote, content, quoted, rfl, h, hquote, hcontent⟩
          · exact .inl ⟨literal :: quoted, .literal hc hliteral h⟩
          · exact .inr ⟨c :: (literal ++ c :: front), quote, content, literal :: quoted, by simp,
              .literal hc hliteral h, hquote, hcontent⟩
        · exact .inr ⟨[], c, rest, [], rfl, .nil, hc, hm⟩

private theorem quote_not_mem_newline {quote : Char} {content : List Char} (hquote : isQuote quote = true)
    (hcontent : quote ∉ content) : quote ∉ content ++ ['\n'] := by
  have hne : quote ≠ '\n' := by
    rintro rfl
    exact absurd hquote (by decide)
  simp [hcontent, hne]

private theorem literals_append_newline (text : List Char) : literals (text ++ ['\n']) = literals text := by
  rcases quotes_or_unclosed text with
    ⟨quoted, h⟩ | ⟨front, quote, content, quoted, rfl, h, hquote, hcontent⟩
  · have hline : Quotes (text ++ ['\n']) (quoted ++ []) := h.append (.plain (by decide) .nil)
    rw [hline.literals_eq, h.literals_eq, List.append_nil]
  · rw [List.append_assoc, List.cons_append, h.literals_unclosed hquote hcontent,
      h.literals_unclosed hquote (quote_not_mem_newline hquote hcontent)]

/-! ## Scripts -/

/-- A piece of a build script: code without quotes, a literal that its quote closes, or a comment to the
end of the line. -/
inductive ScriptPiece where
  | code (text : List Char) (quoteless : text.any isQuote = false)
  | literal (quote : Char) (content : List Char) (isQuote : isQuote quote = true)
      (closed : quote ∉ content)
  | comment (text : List Char) (oneLine : '\n' ∉ text)

namespace ScriptPiece

def text : ScriptPiece → List Char
  | code text _ => text
  | literal quote content _ _ => quote :: (content ++ [quote])
  | comment text _ => "//".toList ++ (text ++ ['\n'])

def literal? : ScriptPiece → Option (List Char)
  | code _ _ => none
  | literal _ content _ _ => some content
  | comment _ _ => none

/-- A comment that closes its quotes and quotes no coordinate. -/
def Harmless : ScriptPiece → Prop
  | comment text _ => ∃ quoted, Quotes text quoted ∧ ∀ q ∈ quoted, ¬ Coordinate q
  | _ => True

end ScriptPiece

/-- The text of a script; the line end behind a last comment may be missing. -/
def Writes (pieces : List ScriptPiece) (script : List Char) : Prop :=
  script = pieces.flatMap ScriptPiece.text ∨ script ++ ['\n'] = pieces.flatMap ScriptPiece.text

private theorem Writes.literals_eq {pieces : List ScriptPiece} {script : List Char}
    (h : Writes pieces script) :
    literals script = literals (pieces.flatMap ScriptPiece.text) := by
  rcases h with h | h
  · rw [h]
  · rw [← h, literals_append_newline]

theorem Quotes.comment {text : List Char} {quoted : List (List Char)} (h : Quotes text quoted) :
    Quotes ("//".toList ++ text) quoted :=
  .plain (by decide) (.plain (by decide) h)

private theorem quotes_of_harmless {pieces : List ScriptPiece} (h : ∀ p ∈ pieces, p.Harmless) :
    ∃ quoted, Quotes (pieces.flatMap ScriptPiece.text) quoted ∧
      coordinatesAmong quoted = coordinatesAmong (pieces.filterMap ScriptPiece.literal?) := by
  induction pieces with
  | nil => exact ⟨[], .nil, rfl⟩
  | cons p pieces ih =>
    obtain ⟨hp, hpieces⟩ := List.forall_mem_cons.mp h
    obtain ⟨quoted, hquoted, hsame⟩ := ih hpieces
    cases p with
    | code text quoteless => exact ⟨quoted, (Quotes.of_quoteless quoteless).append hquoted, hsame⟩
    | literal quote content hquote closed =>
      refine ⟨content :: quoted, ?_, ?_⟩
      · simpa [ScriptPiece.text] using Quotes.literal hquote closed hquoted
      · rw [← List.singleton_append, coordinatesAmong_append, hsame, ← coordinatesAmong_append]
        rfl
    | comment text oneLine =>
      obtain ⟨inner, hinner, hnone⟩ := hp
      refine ⟨inner ++ quoted, ?_, ?_⟩
      · have hline : Quotes ('\n' :: pieces.flatMap ScriptPiece.text) quoted :=
          .plain (by decide) hquoted
        simpa [ScriptPiece.text] using hinner.comment.append hline
      · have hempty : coordinatesAmong inner = [] := by
          simpa [coordinatesAmong] using hnone
        rw [coordinatesAmong_append, hempty, hsame]
        rfl

private theorem quotes_flatMap {pieces : List ScriptPiece} {quoted : List (List (List Char))}
    (h : List.Forall₂ (fun p => Quotes p.text) pieces quoted) :
    Quotes (pieces.flatMap ScriptPiece.text) quoted.flatten := by
  induction h with
  | nil => exact .nil
  | cons hp _ ih => exact hp.append ih

/-- What is read from a comment that leaves a quote open: the next quote of its kind ends a text that is
on two lines at least, so it is no coordinate, and reading goes on behind it. -/
private theorem Quotes.coordinatesAmong_unclosed {text content : List Char} {quoted : List (List Char)}
    {quote : Char} (h : Quotes text quoted) (hquote : isQuote quote = true) (hcontent : quote ∉ content)
    (back : List Char) :
    coordinatesAmong (literals (text ++ quote :: (content ++ '\n' :: back))) =
      coordinatesAmong quoted ++
        (Text.cut? [quote] back).elim [] fun p => coordinatesAmong (literals p.2) := by
  have hnewline : quote ∉ content ++ ['\n'] := quote_not_mem_newline hquote hcontent
  have hline : content ++ '\n' :: back = content ++ ['\n'] ++ back := by simp
  rw [hline]
  cases hcut : Text.cut? [quote] back with
  | none =>
    have hback : quote ∉ back := by
      intro hm
      obtain ⟨front, rest, hsplit, hfront⟩ := List.eq_append_cons_of_mem hm
      rw [Text.cut?_singleton_eq_some_iff.mpr ⟨hsplit, hfront⟩] at hcut
      cases hcut
    have hrest : quote ∉ content ++ ['\n'] ++ back := by
      rw [List.mem_append, not_or]
      exact ⟨hnewline, hback⟩
    rw [h.literals_unclosed hquote hrest, Option.elim_none, List.append_nil]
  | some p =>
    obtain ⟨front, rest⟩ := p
    obtain ⟨rfl, hfront⟩ := Text.cut?_singleton_eq_some_iff.mp hcut
    have hrest : quote ∉ content ++ ['\n'] ++ front := by
      rw [List.mem_append, not_or]
      exact ⟨hnewline, hfront⟩
    have hnone : coordinatesAmong [content ++ ['\n'] ++ front] = [] := by
      have hlines : ¬ Coordinate (content ++ ['\n'] ++ front) := fun hc =>
        hc.not_mem_newline (by simp)
      rw [coordinatesAmong, List.filter_singleton, decide_eq_false hlines]
      rfl
    rw [literals, h.literalsFrom_append, literalsFrom_opens hquote, ← List.append_assoc,
      literalsFrom_closed hrest, coordinatesAmong_append, ← List.singleton_append,
      coordinatesAmong_append, List.reverse_nil, List.nil_append, hnone]
    rfl

/-- The coordinates of a script. If no comment leaves a quote open or quotes a coordinate, they are those
of the literals outside comments, in order and as often as they are written. If no comment leaves a quote
open, those that comments quote count as well. And behind a comment that leaves a quote open nothing is
found before the next quote of its kind. -/
theorem scriptCoordinates_of_pieces {pieces : List ScriptPiece} {script : String}
    (h : Writes pieces script.toList) :
    ((∀ p ∈ pieces, p.Harmless) →
      scriptCoordinates script = coordinatesAmong (pieces.filterMap ScriptPiece.literal?)) ∧
    (∀ quoted : List (List (List Char)), List.Forall₂ (fun p => Quotes p.text) pieces quoted →
      scriptCoordinates script = coordinatesAmong quoted.flatten) ∧
    ∀ front back closed quote content oneLine quoted inner,
      pieces = front ++ .comment (closed ++ quote :: content) oneLine :: back →
      List.Forall₂ (fun p => Quotes p.text) front quoted → Quotes closed inner →
      isQuote quote = true → quote ∉ content →
        scriptCoordinates script = coordinatesAmong (quoted.flatten ++ inner) ++
          (Text.cut? [quote] (back.flatMap ScriptPiece.text)).elim [] fun p =>
            scriptCoordinates (String.ofList p.2) := by
  have hscript : scriptCoordinates script =
      coordinatesAmong (literals (pieces.flatMap ScriptPiece.text)) := by
    rw [scriptCoordinates_eq, h.literals_eq]
  refine ⟨?_, ?_, ?_⟩
  · intro hharmless
    obtain ⟨quoted, hquoted, hsame⟩ := quotes_of_harmless hharmless
    rw [hscript, hquoted.literals_eq, hsame]
  · intro quoted hquoted
    rw [hscript, (quotes_flatMap hquoted).literals_eq]
  · intro front back closed quote content oneLine quoted inner hpieces hfront hclosed hquote hcontent
    have hbefore := (quotes_flatMap hfront).append hclosed.comment
    have htext : pieces.flatMap ScriptPiece.text =
        front.flatMap ScriptPiece.text ++ ("//".toList ++ closed) ++
          quote :: (content ++ '\n' :: back.flatMap ScriptPiece.text) := by
      simp [hpieces, ScriptPiece.text]
    simp only [hscript, htext, hbefore.coordinatesAmong_unclosed hquote hcontent, scriptCoordinates_eq,
      String.toList_ofList]

/-- A script with a closed quotation in its first comment, a literal twice, and a last line that does
not end. -/
def quotedScript : String := "// the 'core' set\napi(\"a.b:c\")\napi 'a.b:c' // twice"

def quotedScriptPieces : List ScriptPiece :=
  [.comment " the 'core' set".toList (by decide), .code "api(".toList (by decide),
    .literal '"' "a.b:c".toList (by decide) (by decide), .code ")\napi ".toList (by decide),
    .literal '\'' "a.b:c".toList (by decide) (by decide), .code " ".toList (by decide),
    .comment " twice".toList (by decide)]

theorem scriptCoordinates_of_pieces_quotedScript :
    Writes quotedScriptPieces quotedScript.toList ∧ (∀ p ∈ quotedScriptPieces, p.Harmless) ∧
    scriptCoordinates quotedScript = ["a.b:c", "a.b:c"] := by
  have hwrites : Writes quotedScriptPieces quotedScript.toList := .inr (by decide +kernel)
  have hfirst : Quotes " the 'core' set".toList ["core".toList] := by
    have hsplit : " the 'core' set".toList =
        " the ".toList ++ '\'' :: ("core".toList ++ '\'' :: " set".toList) := by decide +kernel
    rw [hsplit]
    exact (Quotes.of_quoteless (by decide)).append
      (.literal (by decide) (by decide) (Quotes.of_quoteless (by decide)))
  have hharmless : ∀ p ∈ quotedScriptPieces, p.Harmless := by
    simp only [quotedScriptPieces, List.forall_mem_cons, ScriptPiece.Harmless]
    refine ⟨⟨_, hfirst, by decide +kernel⟩, trivial, trivial, trivial, trivial, trivial,
      ⟨[], Quotes.of_quoteless (by decide), by simp⟩, by simp⟩
  refine ⟨hwrites, hharmless, ?_⟩
  rw [(scriptCoordinates_of_pieces hwrites).1 hharmless]
  decide +kernel

def apostropheScript : String := "// don't pin\napi(\"junit:junit:4.13.2\")\n"

def apostropheScriptPieces : List ScriptPiece :=
  [.comment " don't pin".toList (by decide), .code "api(".toList (by decide),
    .literal '"' "junit:junit:4.13.2".toList (by decide) (by decide),
    .code ")\n".toList (by decide)]

/-- The apostrophe hides the dependency: the script has one coordinate outside its comment, and none is
found. -/
theorem scriptCoordinates_hidden_by_apostrophe :
    Writes apostropheScriptPieces apostropheScript.toList ∧
    coordinatesAmong (apostropheScriptPieces.filterMap ScriptPiece.literal?) =
      ["junit:junit:4.13.2"] ∧
    scriptCoordinates apostropheScript = [] :=
  ⟨.inl (by decide +kernel), by decide +kernel, by decide +kernel⟩

end CoroutineCheck.Gradle

import CoroutineCheck.Span
import CoroutineCheck.Text.Bytes
/-!
# Edits and fixes

An edit replaces one span of a source; a fix is a named list of edits that belong together. A fix
can be applied when every edit lies in the source, cuts no character, and no two of its edits
conflict. The edits of an accepted fix are performed in one pass over the source.
-/
namespace CoroutineCheck

structure Edit where
  span : Span
  replacement : String
deriving DecidableEq, Repr, Inhabited

structure Fix where
  name : String
  edits : List Edit
deriving DecidableEq, Repr, Inhabited

inductive Rejection where
  | outOfBounds (span : Span) (length : Nat)
  | splitsCharacter (span : Span)
  | overlap (first second : Span)
deriving DecidableEq, Repr

namespace Rejection

private def spanText (s : Span) : String :=
  s!"Span \x7b start: {s.start}, end: {s.stop} \x7d"

def message : Rejection → String
  | outOfBounds s n => s!"edit {s.start}..{s.stop} is outside the source ({n} bytes)"
  | splitsCharacter s => s!"edit {s.start}..{s.stop} does not fall on character boundaries"
  | overlap a b => s!"edits at {spanText a} and {spanText b} overlap"

end Rejection

namespace Edit

def rejection? (source : List Char) (e : Edit) : Option Rejection :=
  if e.span.stop < e.span.start || Text.byteLength source < e.span.stop then
    some (.outOfBounds e.span (Text.byteLength source))
  else if Text.isBoundary source e.span.start && Text.isBoundary source e.span.stop then none
  else some (.splitsCharacter e.span)

/-- The order in which edits are performed; edits at one place keep their order. -/
def sort (edits : List Edit) : List Edit :=
  edits.mergeSort fun a b => a.span.before b.span

def neighbourClash? : List Edit → Option Rejection
  | a :: b :: rest =>
    if a.span.conflicts b.span then some (.overlap a.span b.span) else neighbourClash? (b :: rest)
  | _ => none

/-- Copy the source from byte `cursor` on, putting each replacement in place of its span. The edits
come in order; a span that starts before the cursor or cuts a character has no result. -/
def spliceFrom? (source : List Char) (cursor : Nat) : List Edit → Option (List Char)
  | [] => Text.dropBytes? source cursor
  | e :: rest => do
    let kept ← Text.slice? source cursor e.span.start
    let tail ← spliceFrom? source e.span.stop rest
    return kept ++ e.replacement.toList ++ tail

def splice? (source : List Char) (edits : List Edit) : Option (List Char) :=
  spliceFrom? source 0 (sort edits)

end Edit

namespace Fix

def replace (name : String) (span : Span) (replacement : String) : Fix :=
  ⟨name, [⟨span, replacement⟩]⟩

def span? (f : Fix) : Option Span :=
  match f.edits with
  | [] => none
  | e :: rest => some (rest.foldl (fun s d => s.cover d.span) e.span)

/-- The first reason why a fix cannot be applied: a bad edit, else two conflicting neighbours. -/
def rejection? (source : List Char) (f : Fix) : Option Rejection :=
  match f.edits.findSome? (Edit.rejection? source) with
  | some r => some r
  | none => Edit.neighbourClash? (Edit.sort f.edits)

def validate (source : String) (f : Fix) : Except Rejection Unit :=
  match f.rejection? source.toList with
  | some r => .error r
  | none => .ok ()

def apply (source : String) (f : Fix) : Except Rejection String :=
  match f.rejection? source.toList with
  | some r => .error r
  | none => .ok (String.ofList ((Edit.splice? source.toList f.edits).getD source.toList))

end Fix
end CoroutineCheck

/-!
# Searching and cutting text

Small operations on character lists: what follows a given beginning, the two sides of the first
occurrence of a text, the pieces between separators, and comparison without regard to the case of
ASCII letters.
-/
namespace CoroutineCheck.Text

/-- What follows `lead` at the beginning of a text. -/
def after? : (lead text : List Char) → Option (List Char)
  | [], text => some text
  | _ :: _, [] => none
  | l :: lead, c :: text => if l = c then after? lead text else none

def before? (tail text : List Char) : Option (List Char) :=
  (after? tail.reverse text.reverse).map List.reverse

/-- The two sides of the first occurrence of `sub`. -/
def cut? (sub : List Char) : List Char → Option (List Char × List Char)
  | [] => (after? sub []).map fun rest => ([], rest)
  | c :: cs =>
    match after? sub (c :: cs) with
    | some rest => some ([], rest)
    | none => (cut? sub cs).map fun p => (c :: p.1, p.2)

def contains (sub text : List Char) : Bool :=
  (cut? sub text).isSome

def cutLast? (sep : Char) (text : List Char) : Option (List Char × List Char) :=
  (cut? [sep] text.reverse).map fun p => (p.2.reverse, p.1.reverse)

/-- The pieces between the occurrences of a character: one more than there are occurrences. -/
def pieces (sep : Char) : List Char → List (List Char)
  | [] => [[]]
  | c :: cs =>
    if c = sep then [] :: pieces sep cs
    else
      match pieces sep cs with
      | [] => [[c]]
      | p :: ps => (c :: p) :: ps

def sameIgnoringCase (a b : List Char) : Bool :=
  a.map Char.toLower == b.map Char.toLower

def trimAll (c : Char) (cs : List Char) : List Char :=
  ((cs.dropWhile (· == c)).reverse.dropWhile (· == c)).reverse

end CoroutineCheck.Text

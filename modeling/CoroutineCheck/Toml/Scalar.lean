import CoroutineCheck.Text.Search
import CoroutineCheck.Toml.Value
/-!
# Numbers, truth values and dates

A scalar without quotes is a run of letters, digits and the signs `+-._:`. The run as a whole must be
a number, a truth value or a date.
-/
namespace CoroutineCheck.Toml

def isWordChar (c : Char) : Bool :=
  c.isAlphanum || c == '+' || c == '-' || c == '.' || c == '_' || c == ':'

private def signOf : List Char → Bool × List Char
  | '-' :: cs => (true, cs)
  | '+' :: cs => (false, cs)
  | cs => (false, cs)

/-- Digits of a kind with single underscores between them. -/
private def digitRun? (isDigit : Char → Bool) : List Char → Option (List Char)
  | [] => none
  | [c] => if isDigit c then some [c] else none
  | c :: '_' :: rest => if isDigit c then (digitRun? isDigit rest).map (c :: ·) else none
  | c :: rest => if isDigit c then (digitRun? isDigit rest).map (c :: ·) else none

private def digitValue (c : Char) : Nat :=
  if c.isDigit then c.toNat - '0'.toNat
  else if 'a' ≤ c && c ≤ 'f' then c.toNat - 'a'.toNat + 10
  else c.toNat - 'A'.toNat + 10

private def readBase (base : Nat) (digits : List Char) : Nat :=
  digits.foldl (fun n c => n * base + digitValue c) 0

private def isHexDigit (c : Char) : Bool :=
  c.isDigit || ('a' ≤ c && c ≤ 'f') || ('A' ≤ c && c ≤ 'F')

private def isOctalDigit (c : Char) : Bool := '0' ≤ c && c ≤ '7'

private def isBinaryDigit (c : Char) : Bool := c == '0' || c == '1'

private def plainRun? (cs : List Char) : Option (List Char) := do
  let digits ← digitRun? Char.isDigit cs
  if digits.head? == some '0' && 1 < digits.length then none else return digits

private def based? (base : Nat) (isDigit : Char → Bool) (cs : List Char) : Option Int :=
  (digitRun? isDigit cs).map fun ds => readBase base ds

def integer? (word : List Char) : Option Int := do
  let n ← match word with
    | '0' :: 'x' :: cs => based? 16 isHexDigit cs
    | '0' :: 'o' :: cs => based? 8 isOctalDigit cs
    | '0' :: 'b' :: cs => based? 2 isBinaryDigit cs
    | _ =>
      let (negative, cs) := signOf word
      (plainRun? cs).map fun ds =>
        let n : Int := readBase 10 ds
        if negative then -n else n
  if -Int.pow 2 63 ≤ n && n < Int.pow 2 63 then return n else none

private def isExponentMark (c : Char) : Bool := c == 'e' || c == 'E'

private def exponent? (cs : List Char) : Option Int := do
  let (negative, rest) := signOf cs
  let n : Int := readBase 10 (← digitRun? Char.isDigit rest)
  return if negative then -n else n

private def special? (cs : List Char) : Option (Bool → Binary64) :=
  if cs == "inf".toList then some .infinite
  else if cs == "nan".toList then some fun _ => .nan
  else none

/-- A number with a point, an exponent or both. One too large is refused, unless it is negative. -/
def float? (word : List Char) : Option Binary64 := do
  let (negative, cs) := signOf word
  match special? cs with
  | some x => return x negative
  | none =>
    let front := cs.takeWhile (!isExponentMark ·)
    let back := cs.dropWhile (!isExponentMark ·)
    let exponent ← match back with
      | [] => pure 0
      | _ :: ds => exponent? ds
    let (whole, fraction) ← match Text.cut? ['.'] front with
      | some (w, f) => do pure (← plainRun? w, ← digitRun? Char.isDigit f)
      | none => if back.isEmpty then none else do pure (← plainRun? front, [])
    let x := Binary64.ofDecimal negative (readBase 10 (whole ++ fraction))
      (exponent - fraction.length)
    if x == .infinite false then none else return x

def scalar? (word : List Char) : Option Value :=
  if word == "true".toList then some (.boolean true)
  else if word == "false".toList then some (.boolean false)
  else
    match Datetime.ofText? .document word, integer? word with
    | some d, _ => some (.datetime d)
    | none, some n => some (.integer n)
    | none, none => (float? word).map .float

end CoroutineCheck.Toml

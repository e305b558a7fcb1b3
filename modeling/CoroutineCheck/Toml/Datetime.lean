import CoroutineCheck.Text.Search
/-!
# Dates and times

A date, a time of day, or both, and then perhaps an offset from universal time. Each has one text:
the fraction of a second goes down to nanoseconds and has no zeros at its end, and an offset of no
minutes has a plus sign.
-/
namespace CoroutineCheck.Toml

structure Date where
  year : Nat
  month : Nat
  day : Nat
deriving DecidableEq, Repr

structure Time where
  hour : Nat
  minute : Nat
  second : Nat
  nanosecond : Nat
deriving DecidableEq, Repr

inductive Offset where
  | universal
  | minutes (n : Int)
deriving DecidableEq, Repr

structure Datetime where
  date : Option Date
  time : Option Time
  offset : Option Offset
deriving DecidableEq, Repr

private def padded (width n : Nat) : List Char :=
  let digits := Nat.toDigits 10 n
  List.replicate (width - digits.length) '0' ++ digits

private def dropZeros (cs : List Char) : List Char :=
  (cs.reverse.dropWhile (· == '0')).reverse

def Date.text (d : Date) : List Char :=
  padded 4 d.year ++ '-' :: padded 2 d.month ++ '-' :: padded 2 d.day

def Time.text (t : Time) : List Char :=
  padded 2 t.hour ++ ':' :: padded 2 t.minute ++ ':' :: padded 2 t.second ++
    if t.nanosecond = 0 then [] else '.' :: dropZeros (padded 9 t.nanosecond)

def Offset.text : Offset → List Char
  | universal => ['Z']
  | minutes n =>
    (if n < 0 then '-' else '+') :: padded 2 (n.natAbs / 60) ++ ':' :: padded 2 (n.natAbs % 60)

namespace Datetime

def text (d : Datetime) : String :=
  let date := (d.date.map Date.text).getD []
  let time := (d.time.map Time.text).getD []
  let between := if d.date.isSome && d.time.isSome then ['T'] else []
  String.ofList (date ++ between ++ time ++ (d.offset.map Offset.text).getD [])

structure Limits where
  hour : Nat
  offsetHour : Nat
  offsetMinute : Nat

/-- Dates in a document keep to the hours of the day. -/
def Limits.document : Limits := ⟨23, 23, 59⟩

/-- Dates that come as texts may show hour 24, and any offset of up to a day. -/
def Limits.lenient : Limits := ⟨24, 99, 99⟩

private def readDigits (digits : List Char) : Nat :=
  digits.foldl (fun n c => n * 10 + (c.toNat - '0'.toNat)) 0

private def twoDigits? (least greatest : Nat) : List Char → Option (Nat × List Char)
  | a :: b :: rest =>
    let n := readDigits [a, b]
    if a.isDigit && b.isDigit && least ≤ n && n ≤ greatest then some (n, rest) else none
  | _ => none

private def isLeap (year : Nat) : Bool :=
  year % 4 == 0 && (year % 100 != 0 || year % 400 == 0)

private def daysIn (year month : Nat) : Nat :=
  if month == 2 then (if isLeap year then 29 else 28)
  else if month == 4 || month == 6 || month == 9 || month == 11 then 30
  else 31

private def date? : List Char → Option (Date × List Char)
  | a :: b :: c :: d :: '-' :: rest =>
    if [a, b, c, d].all Char.isDigit then do
      let year := readDigits [a, b, c, d]
      let (month, rest) ← twoDigits? 1 12 rest
      let rest ← Text.after? ['-'] rest
      let (day, rest) ← twoDigits? 1 (daysIn year month) rest
      return (⟨year, month, day⟩, rest)
    else none
  | _ => none

/-- The nanoseconds behind a decimal point; digits past the ninth do not count. -/
private def nanoseconds (digits : List Char) : Nat :=
  let kept := digits.take 9
  readDigits kept * Nat.pow 10 (9 - kept.length)

private def time? (l : Limits) (cs : List Char) : Option (Time × List Char) := do
  let (hour, rest) ← twoDigits? 0 l.hour cs
  let rest ← Text.after? [':'] rest
  let (minute, rest) ← twoDigits? 0 59 rest
  let rest ← Text.after? [':'] rest
  let (second, rest) ← twoDigits? 0 60 rest
  match rest with
  | '.' :: rest =>
    let digits := rest.takeWhile Char.isDigit
    if digits.isEmpty then none
    else return (⟨hour, minute, second, nanoseconds digits⟩, rest.dropWhile Char.isDigit)
  | rest => return (⟨hour, minute, second, 0⟩, rest)

private def offset? (l : Limits) : List Char → Option (Option Offset)
  | [] => some none
  | ['Z'] => some (some .universal)
  | ['z'] => some (some .universal)
  | sign :: rest => do
    let (hours, rest) ← twoDigits? 0 l.offsetHour rest
    let rest ← Text.after? [':'] rest
    let (minutes, rest) ← twoDigits? 0 l.offsetMinute rest
    let n := hours * 60 + minutes
    if !rest.isEmpty || 24 * 60 < n then none
    else if sign == '+' then return some (.minutes n)
    else if sign == '-' then return some (.minutes (-n))
    else none

private def isDelimiter (c : Char) : Bool := c == 'T' || c == 't' || c == ' '

/-- Read a text as a whole. Only a time of day with a date has an offset. -/
def ofText? (l : Limits) (cs : List Char) : Option Datetime :=
  match date? cs with
  | some (date, []) => some ⟨some date, none, none⟩
  | some (date, c :: rest) =>
    if isDelimiter c then do
      let (time, rest) ← time? l rest
      return ⟨some date, some time, ← offset? l rest⟩
    else none
  | none =>
    match time? l cs with
    | some (time, []) => some ⟨none, some time, none⟩
    | _ => none

end Datetime
end CoroutineCheck.Toml

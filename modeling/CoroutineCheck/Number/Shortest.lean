import CoroutineCheck.Number.Binary64
/-!
# The shortest decimal text of a number

Of all decimals that round to a number, the text has the fewest digits, and of those the nearest. It
is written with an exponent below `10^-4` and from `10^16` on, and else with a decimal point.
-/
namespace CoroutineCheck.Binary64

/-- A number and the points half way to its neighbours, as multiples of a quarter of its unit. The
end points round to the number exactly when its mantissa is even. -/
structure Interval where
  low : Nat
  mid : Nat
  high : Nat
  closed : Bool

/-- The decimals that round to `m * 2^q`, in units of `2^(q-2)`. -/
def interval (m : Nat) (q : Int) : Interval where
  low := if m = Nat.pow 2 52 ∧ leastExponent < q then 4 * m - 1 else 4 * m - 2
  mid := 4 * m
  high := 4 * m + 2
  closed := m % 2 == 0

def compareDecimal (c : Nat) (j : Int) (n : Nat) (p : Int) : Ordering :=
  compare (c * Nat.pow 10 j.toNat * Nat.pow 2 (-p).toNat)
    (n * Nat.pow 2 p.toNat * Nat.pow 10 (-j).toNat)

def Interval.holds (i : Interval) (p : Int) (c : Nat) (j : Int) : Bool :=
  match compareDecimal c j i.low p, compareDecimal c j i.high p with
  | .gt, .lt => true
  | .eq, _ | _, .eq => i.closed
  | _, _ => false

/-- `n * 2^p / 10^j`, rounded down. -/
def floorDecimal (n : Nat) (p j : Int) : Nat :=
  n * Nat.pow 2 p.toNat * Nat.pow 10 (-j).toNat / (Nat.pow 2 (-p).toNat * Nat.pow 10 j.toNat)

/-- The decimal with unit `10^j` that rounds to the number, the nearer of the two neighbours. -/
def decimalAt? (i : Interval) (p j : Int) : Option Nat :=
  let c := floorDecimal i.mid p j
  match i.holds p c j && 0 < c, i.holds p (c + 1) j with
  | true, true =>
    -- twice the value against the sum of both neighbours
    if compareDecimal (2 * c + 1) j (2 * i.mid) p == .gt then some c else some (c + 1)
  | true, false => some c
  | false, true => some (c + 1)
  | false, false => none

def shortestFrom (i : Interval) (p : Int) : Nat → Int → Nat × Int
  | 0, j => (floorDecimal i.mid p j, j)
  | n + 1, j =>
    match decimalAt? i p j with
    | some c => (c, j)
    | none => shortestFrom i p n (j - 1)

private def trimZeros : Nat → Nat × Int → Nat × Int
  | 0, d => d
  | n + 1, (c, j) => if c % 10 = 0 && c ≠ 0 then trimZeros n (c / 10, j + 1) else (c, j)

/-- The digits `c` and the unit `10^j` of the shortest decimal for `m * 2^q`, `m` not zero. -/
def shortest (m : Nat) (q : Int) : Nat × Int :=
  let i := interval m q
  trimZeros 400 (shortestFrom i (q - 2) 800 400)

private def zeros (n : Nat) : String := String.ofList (List.replicate n '0')

/-- A decimal point after the first `point` digits, zeros where there are none. -/
private def positional (digits : String) (point : Int) : String :=
  let n : Int := digits.length
  if point ≤ 0 then "0." ++ zeros (-point).toNat ++ digits
  else if n ≤ point then digits ++ zeros (point - n).toNat ++ ".0"
  else
    let ds := digits.toList
    String.ofList (ds.take point.toNat) ++ "." ++ String.ofList (ds.drop point.toNat)

private def scientific (digits : String) (point : Int) : String :=
  let mantissa := match digits.toList with
    | [] => "0"
    | [d] => d.toString
    | d :: ds => d.toString ++ "." ++ String.ofList ds
  mantissa ++ "e" ++ toString (point - 1)

def text : Binary64 → String
  | nan => "NaN"
  | infinite s => if s then "-inf" else "inf"
  | finite s m q =>
    let body :=
      if m = 0 then "0.0"
      else
        let (c, j) := shortest m q
        let digits := toString c
        let point := (digits.length : Int) + j
        if point ≤ -4 || 16 < point then scientific digits point else positional digits point
    if s then "-" ++ body else body

end CoroutineCheck.Binary64

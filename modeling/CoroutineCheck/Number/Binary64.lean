/-!
# Binary floating point

The numbers of the 64-bit binary format: `m * 2^q` with `m` below `2^53`, infinities, and one value
that is not a number. A quotient is rounded to the nearest of them, a half to the even neighbour.
-/
namespace CoroutineCheck

inductive Binary64 where
  | finite (negative : Bool) (m : Nat) (q : Int)
  | infinite (negative : Bool)
  | nan
deriving DecidableEq, Repr, Inhabited

namespace Binary64

def leastExponent : Int := -1074

def greatestExponent : Int := 971

/-- `a / b` to the nearest natural number, a half to the even one. -/
def roundDiv (a b : Nat) : Nat :=
  let d := a / b
  let r := a % b
  if b < 2 * r || (2 * r == b && d % 2 == 1) then d + 1 else d

/-- Scale a quotient by a power of two: numerator and denominator of `a / (b * 2^q)`. -/
def scale (a b : Nat) (q : Int) : Nat × Nat :=
  if 0 ≤ q then (a, b * Nat.pow 2 q.toNat) else (a * Nat.pow 2 (-q).toNat, b)

/-- The exponent for a positive quotient: the mantissa has 53 bits, or fewer at the least exponent. -/
def exponentFor (a b : Nat) : Int :=
  let q := max ((a.log2 : Int) - (b.log2 : Int) - 53) leastExponent
  let (n, d) := scale a b q
  if Nat.pow 2 53 ≤ n / d then q + 1 else q

/-- The nearest number to `a / b`, for `b` not zero. -/
def ofQuotient (negative : Bool) (a b : Nat) : Binary64 :=
  if a = 0 then finite negative 0 leastExponent
  else
    let q := exponentFor a b
    let (n, d) := scale a b q
    let m := roundDiv n d
    let (m, q) := if m = Nat.pow 2 53 then (Nat.pow 2 52, q + 1) else (m, q)
    if greatestExponent < q then infinite negative else finite negative m q

/-- The nearest number to `digits * 10^exponent`. Magnitudes beyond all numbers are not computed. -/
def ofDecimal (negative : Bool) (digits : Nat) (exponent : Int) : Binary64 :=
  let size : Int := (toString digits).length
  if digits = 0 then finite negative 0 leastExponent
  else if 400 < exponent + size then infinite negative
  else if exponent + size < -400 then finite negative 0 leastExponent
  else if 0 ≤ exponent then ofQuotient negative (digits * Nat.pow 10 exponent.toNat) 1
  else ofQuotient negative digits (Nat.pow 10 (-exponent).toNat)

end Binary64
end CoroutineCheck

/-!
# Blank characters

The Unicode property White_Space, and the trimming that goes with it.
-/
namespace CoroutineCheck.Text

/-- Ranges of White_Space, in increasing order. -/
def blankRanges : List (Nat × Nat) :=
  [(0x09, 0x0D), (0x20, 0x20), (0x85, 0x85), (0xA0, 0xA0), (0x1680, 0x1680), (0x2000, 0x200A),
   (0x2028, 0x2029), (0x202F, 0x202F), (0x205F, 0x205F), (0x3000, 0x3000)]

def isBlank (c : Char) : Bool :=
  blankRanges.any fun r => r.1 ≤ c.toNat && c.toNat ≤ r.2

def trimLeft (cs : List Char) : List Char :=
  cs.dropWhile isBlank

def trimRight (cs : List Char) : List Char :=
  (cs.reverse.dropWhile isBlank).reverse

def trim (cs : List Char) : List Char :=
  trimRight (trimLeft cs)

def firstWord (cs : List Char) : List Char :=
  (trimLeft cs).takeWhile (!isBlank ·)

def squeeze (cs : List Char) : List Char :=
  cs.filter (!isBlank ·)

end CoroutineCheck.Text

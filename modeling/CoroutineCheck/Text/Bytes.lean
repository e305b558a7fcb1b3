/-!
# Byte offsets in text

Positions in a source count UTF-8 bytes. A text is a list of characters, and an offset is usable
only where a character starts or the text ends; every cut says so by returning an option.
-/
namespace CoroutineCheck.Text

def byteLength : List Char → Nat
  | [] => 0
  | c :: cs => c.utf8Size + byteLength cs

/-- The text from byte `n` on, if a character starts there or the text ends there. -/
def dropBytes? : List Char → Nat → Option (List Char)
  | cs, 0 => some cs
  | [], _ + 1 => none
  | c :: cs, n + 1 =>
    if c.utf8Size ≤ n + 1 then dropBytes? cs (n + 1 - c.utf8Size) else none

def takeBytes? : List Char → Nat → Option (List Char)
  | _, 0 => some []
  | [], _ + 1 => none
  | c :: cs, n + 1 =>
    if c.utf8Size ≤ n + 1 then (takeBytes? cs (n + 1 - c.utf8Size)).map (c :: ·) else none

def isBoundary (cs : List Char) (n : Nat) : Bool :=
  (dropBytes? cs n).isSome

/-- The bytes from `start` up to `stop`; `none` for a reversed range or one that cuts a character. -/
def slice? (cs : List Char) (start stop : Nat) : Option (List Char) :=
  if start ≤ stop then (dropBytes? cs start).bind (takeBytes? · (stop - start)) else none

@[simp] theorem dropBytes?_zero (cs : List Char) : dropBytes? cs 0 = some cs := by
  cases cs <;> rfl

@[simp] theorem takeBytes?_zero (cs : List Char) : takeBytes? cs 0 = some [] := by
  cases cs <;> rfl

theorem byteLength_append (cs ds : List Char) :
    byteLength (cs ++ ds) = byteLength cs + byteLength ds := by
  induction cs with
  | nil => simp [byteLength]
  | cons c cs ih => simp [byteLength, ih, Nat.add_assoc]

end CoroutineCheck.Text

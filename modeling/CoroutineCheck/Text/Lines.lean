import CoroutineCheck.Text.Search
/-!
# Lines and positions

A line ends at a line feed, or at a carriage return with a line feed after it. A position is a line
number and a column, both from one; columns count bytes.
-/
namespace CoroutineCheck.Text

def endLines : List (List Char) → List (List Char)
  | [] => []
  | [last] => if last.isEmpty then [] else [last]
  | line :: rest => (before? ['\r'] line).getD line :: endLines rest

/-- The lines of a text without their ends; what follows the last line feed is a line only if it
is not empty. -/
def lines (text : List Char) : List (List Char) :=
  endLines (pieces '\n' text)

structure Position where
  line : Nat
  column : Nat
deriving DecidableEq, Repr, Inhabited

/-- Move a position over some bytes; inside a character it stays in its line. -/
def advance : List Char → Nat → Position → Position
  | _, 0, p => p
  | [], _ + 1, p => p
  | c :: cs, n + 1, p =>
    if n + 1 < c.utf8Size then ⟨p.line, p.column + (n + 1)⟩
    else if c = '\n' then advance cs (n + 1 - c.utf8Size) ⟨p.line + 1, 1⟩
    else advance cs (n + 1 - c.utf8Size) ⟨p.line, p.column + c.utf8Size⟩

/-- The position of a byte offset; offsets past the end stand for the end. -/
def position (text : List Char) (offset : Nat) : Position :=
  advance text offset ⟨1, 1⟩

end CoroutineCheck.Text

import CoroutineCheck.Text.Places
/-!
# Exclude patterns

Patterns for whole path texts. `?`, `*` and classes also match separators; `**` stands alone between
separators and matches any number of directories, or all that is left.
-/
namespace CoroutineCheck

namespace ExcludePattern

inductive Token where
  | char (c : Char)
  | any
  | star
  | deep
  | oneOf (negated : Bool) (ranges : List (Char × Char))
deriving DecidableEq, Repr

/-- The ranges of a class; a character that starts no range is a range of its own. -/
def ranges : List Char → List (Char × Char)
  | a :: '-' :: b :: rest => (a, b) :: ranges rest
  | a :: rest => (a, a) :: ranges rest
  | [] => []

/-- Where the reader stands: outside of classes, knowing whether a path component may start here, or
inside a class with the characters read so far in reverse. -/
inductive Place where
  | outside (fresh : Bool)
  | inside (negated : Bool) (taken : List Char)

/-- The tokens of a pattern. A class holds at least one character, so that a closing bracket in front
is an ordinary one. -/
def tokens? : Place → List Char → Option (List Token)
  | .outside _, [] => some []
  | .inside _ _, [] => none
  | .inside negated taken, c :: rest =>
    if c == ']' then
      (tokens? (.outside false) rest).map (.oneOf negated (ranges taken.reverse) :: ·)
    else tokens? (.inside negated (c :: taken)) rest
  | .outside _, '*' :: '*' :: '*' :: _ => none
  | .outside fresh, '*' :: '*' :: '/' :: rest =>
    if fresh then (tokens? (.outside true) rest).map (.deep :: ·) else none
  | .outside fresh, ['*', '*'] => if fresh then some [.deep] else none
  | .outside _, '*' :: '*' :: _ => none
  | .outside _, '*' :: rest => (tokens? (.outside false) rest).map (.star :: ·)
  | .outside _, '?' :: rest => (tokens? (.outside false) rest).map (.any :: ·)
  | .outside _, '[' :: '!' :: c :: rest => tokens? (.inside true [c]) rest
  | .outside _, '[' :: c :: rest => if c == '!' then none else tokens? (.inside false [c]) rest
  | .outside _, ['['] => none
  | .outside _, c :: rest => (tokens? (.outside (c == '/')) rest).map (.char c :: ·)

def Token.accepts (c : Char) : Token → Bool
  | char x => x == c
  | any => true
  | oneOf negated rs => (rs.any fun r => r.1 ≤ c && c ≤ r.2) != negated
  | star => false
  | deep => false

def Token.move (text : List Char) (places : Text.Places) : Token → Text.Places
  | star => places.spread (fun _ => true) text
  | deep => (places.union (places.behind (· == '/') text)).union (places.atLast text)
  | t => places.step (t.accepts ·) text

end ExcludePattern

structure ExcludePattern where
  tokens : List ExcludePattern.Token
deriving DecidableEq, Repr

namespace ExcludePattern

def ofText? (text : String) : Option ExcludePattern :=
  (tokens? (.outside true) text.toList).map ExcludePattern.mk

def isMatch (p : ExcludePattern) (text : String) : Bool :=
  (p.tokens.foldl (Token.move text.toList) (.start text.toList)).hasEnd

end ExcludePattern
end CoroutineCheck

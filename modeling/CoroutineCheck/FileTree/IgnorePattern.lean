import CoroutineCheck.Text.Places
/-!
# Ignore patterns

Patterns for relative paths in ignore files. `?` and `*` do not match separators; `**` between
separators matches any number of directories; `{a,b}` stands for either text. Patterns work on
the bytes of a path, so that `?` or a class matches one byte of a character that has several.
-/
namespace CoroutineCheck

namespace IgnorePattern

inductive Token where
  | byte (b : UInt8)
  | any
  | star
  /-- Directories in front, or none. -/
  | leading
  /-- Everything below. -/
  | trailing
  /-- A separator, or directories between two of them. -/
  | between
  | oneOf (negated : Bool) (ranges : List (UInt8 × UInt8))
  /-- One of several branches; nothing if there is none. -/
  | either (branches : List (List Token))
deriving Repr, Inhabited

private def slash : UInt8 := 0x2F

private def isSlash (b : UInt8) : Bool := b == slash

private def inRanges (rs : List (UInt8 × UInt8)) (b : UInt8) : Bool :=
  rs.any fun r => r.1 ≤ b && b ≤ r.2

private def deeper (text : List UInt8) (places : Text.Places) : Text.Places :=
  places.union (places.behind isSlash text)

mutual

def Token.move (text : List UInt8) (places : Text.Places) : Token → Text.Places
  | .byte b => places.step (· == b) text
  | .any => places.step (!isSlash ·) text
  | .star => places.spread (!isSlash ·) text
  | .leading => deeper text places
  | .trailing => (places.step isSlash text).spread (fun _ => true) text
  | .between => deeper text (places.step isSlash text)
  | .oneOf negated rs => places.step (fun b => inRanges rs b != negated) text
  | .either [] => places
  | .either (b :: bs) => moveAny text places (b :: bs)

def moveAll (text : List UInt8) (places : Text.Places) : List Token → Text.Places
  | [] => places
  | t :: ts => moveAll text (t.move text places) ts

def moveAny (text : List UInt8) (places : Text.Places) : List (List Token) → Text.Places
  | [] => .nowhere text
  | b :: bs => (moveAll text places b).union (moveAny text places bs)

end

/-- A group of branches under construction: those finished, and the tokens of the open one in
reverse. -/
structure Group where
  branches : List (List Token)
  current : List Token

/-- The open groups, the innermost one first and the pattern itself last. -/
abbrev Groups := Group × List Group

private def push (t : Token) (g : Groups) : Groups :=
  ({ g.1 with current := t :: g.1.current }, g.2)

private def pushChar (c : Char) (g : Groups) : Groups :=
  (String.utf8EncodeChar c).foldl (fun g b => push (.byte b) g) g

private def isNested (g : Groups) : Bool := !g.2.isEmpty

private def Token.isNothing : Token → Bool
  | .either [] => true
  | _ => false

private def Group.finish (g : Group) : List (List Token) :=
  (g.branches ++ [g.current.reverse]).filter (!·.all Token.isNothing)

/-- Close the innermost group. A group without a branch stands for nothing. -/
private def close? : Groups → Option Groups
  | (_, []) => none
  | (g, outer :: rest) => some (push (.either g.finish) (outer, rest))

/-- Put the token for `**` behind a separator: it takes the separator's place, and joins one of its
kind. -/
private def pushDeep (atEnd : Bool) (g : Groups) : Groups :=
  match g.1.current with
  | .leading :: _ => g
  | .trailing :: _ => g
  | _ :: before =>
    ({ g.1 with current := (if atEnd then .trailing else .between) :: before }, g.2)
  | [] => g

structure OpenClass where
  negated : Bool
  ranges : List (Char × Char)
  first : Bool
  inRange : Bool

private def OpenClass.add? (k : OpenClass) (c : Char) : Option OpenClass :=
  if k.inRange then
    match k.ranges with
    | (a, _) :: rest =>
      if c < a then none else some { k with ranges := (a, c) :: rest, first := false, inRange := false }
    | [] => none
  else if c == '-' && !k.first then some { k with inRange := true }
  else some { k with ranges := (c, c) :: k.ranges, first := false }

/-- The bytes of a range of characters: those of its ends, and all between the last one of the first
character and the first one of the last character. -/
private def byteRanges (r : Char × Char) : List (UInt8 × UInt8) :=
  let ends (bytes : List UInt8) : List (UInt8 × UInt8) := bytes.map fun b => (b, b)
  let low := String.utf8EncodeChar r.1
  let high := String.utf8EncodeChar r.2
  if r.1 == r.2 then ends low
  else ends (low ++ high) ++ (low.getLast?.bind fun a => high.head?.map fun b => (a, b)).toList

private def OpenClass.token (k : OpenClass) : Token :=
  let ranges := if k.inRange then ('-', '-') :: k.ranges else k.ranges
  .oneOf k.negated (ranges.flatMap byteRanges)

private def openClass : List Char → OpenClass × List Char
  | '!' :: rest => (⟨true, [], true, false⟩, rest)
  | '^' :: rest => (⟨true, [], true, false⟩, rest)
  | rest => (⟨false, [], true, false⟩, rest)

/-- Whether a class is closed. A range with its ends in the wrong order gives no answer. -/
private def closes? (k : OpenClass) : List Char → Option Bool
  | [] => some false
  | c :: rest => if c == ']' && !k.first then some true else (k.add? c).bind (closes? · rest)

inductive Place where
  | outside (previous : Option Char)
  | inside (k : OpenClass)

private def isGroupMark (g : Groups) (c : Char) : Bool :=
  isNested g && (c == ',' || c == '\x7d')

/-- Whether `**` stands at the beginning of a path component, as far as the character before it tells. -/
private def isFresh (g : Groups) (previous : Option Char) : Bool :=
  previous == some '/' || (isNested g && (previous == some ',' || previous == some '\x7b'))

/-- The tokens of a pattern. A bracket that nothing closes is an ordinary character, as are all after
it; a range in the wrong order, a group that is not closed, or closed twice, and a backslash at the
end are refused. -/
def tokens? (classes : Bool) (g : Groups) : Place → List Char → Option (List Token)
  | .outside _, [] => if isNested g then none else some g.1.current.reverse
  | .inside _, [] => none
  | .inside k, c :: rest =>
    if c == ']' && !k.first then tokens? classes (push k.token g) (.outside (some ']')) rest
    else (k.add? c).bind fun k => tokens? classes g (.inside k) rest
  | .outside previous, '*' :: '*' :: rest =>
    let stars := push .star (push .star g)
    if g.1.current.isEmpty then
      match rest with
      | [] => tokens? classes (push .leading g) (.outside (some '*')) []
      | '/' :: rest => tokens? classes (push .leading g) (.outside (some '/')) rest
      | rest => tokens? classes stars (.outside (some '*')) rest
    else if !isFresh g previous then tokens? classes stars (.outside (some '*')) rest
    else
      match rest with
      | [] => tokens? classes (pushDeep true g) (.outside (some '*')) []
      | '/' :: rest => tokens? classes (pushDeep false g) (.outside (some '/')) rest
      | c :: rest =>
        let g := if isGroupMark g c then pushDeep true g else stars
        tokens? classes g (.outside (some '*')) (c :: rest)
  | .outside _, '*' :: rest => tokens? classes (push .star g) (.outside (some '*')) rest
  | .outside _, '?' :: rest => tokens? classes (push .any g) (.outside (some '?')) rest
  | .outside _, '[' :: rest =>
    let (k, body) := openClass rest
    match if classes then closes? k body else some false with
    | none => none
    | some false => tokens? false (pushChar '[' g) (.outside (some '[')) rest
    | some true =>
      match rest with
      | '!' :: rest => tokens? classes g (.inside k) rest
      | '^' :: rest => tokens? classes g (.inside k) rest
      | rest => tokens? classes g (.inside k) rest
  | .outside _, '\\' :: c :: rest => tokens? classes (pushChar c g) (.outside (some c)) rest
  | .outside _, ['\\'] => none
  | .outside _, '\x7b' :: rest =>
    tokens? classes (⟨[], []⟩, g.1 :: g.2) (.outside (some '\x7b')) rest
  | .outside _, '\x7d' :: rest =>
    (close? g).bind fun g => tokens? classes g (.outside (some '\x7d')) rest
  | .outside _, c :: rest =>
    if c == ',' && isNested g then
      let g := (⟨g.1.branches ++ [g.1.current.reverse], []⟩, g.2)
      tokens? classes g (.outside (some ',')) rest
    else tokens? classes (pushChar c g) (.outside (some c)) rest

end IgnorePattern

structure IgnorePattern where
  tokens : List IgnorePattern.Token
deriving Repr

namespace IgnorePattern

def ofText? (text : List Char) : Option IgnorePattern :=
  (tokens? true (⟨[], []⟩, []) (.outside none) text).map IgnorePattern.mk

/-- Whether a pattern matches the whole text. A pattern that is `**` alone matches everything. -/
def isMatch (p : IgnorePattern) (text : List Char) : Bool :=
  match p.tokens with
  | [.leading] => true
  | ts =>
    let bytes := text.flatMap String.utf8EncodeChar
    (moveAll bytes (.start bytes) ts).hasEnd

end IgnorePattern
end CoroutineCheck

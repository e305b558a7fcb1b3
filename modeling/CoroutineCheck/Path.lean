import CoroutineCheck.Text.Search
/-!
# Paths

A path keeps the text it was written with. Two paths are compared by their components: repeated
separators, a separator at the end and every `.` but a leading one do not count.
-/
namespace CoroutineCheck

structure Path where
  text : String
deriving DecidableEq, Repr, Inhabited

namespace Path

inductive Component where
  | root
  | here
  | up
  | name (text : String)
deriving DecidableEq, Repr

namespace Component

def rank : Component → Nat
  | root => 0
  | here => 1
  | up => 2
  | name _ => 3

def compare : Component → Component → Ordering
  | name a, name b => Ord.compare a b
  | a, b => Ord.compare a.rank b.rank

end Component

def isAbsolute (p : Path) : Bool := p.text.toList.head? == some '/'

/-- A path as it is written: whether a separator leads it, whether `.` leads it, and the segments
between separators after that. -/
structure Written where
  absolute : Bool
  dotted : Bool
  segments : List (List Char)

def written (p : Path) : Written :=
  match Text.pieces '/' p.text.toList with
  | [] :: segments@(_ :: _) => ⟨true, false, segments⟩
  | ['.'] :: segments => ⟨false, true, segments⟩
  | segments => ⟨false, false, segments⟩

/-- A segment that stands for no component. -/
def silent (segment : List Char) : Bool :=
  segment == [] || segment == ['.']

def Component.ofSegment (segment : List Char) : Component :=
  if segment == ['.', '.'] then .up else .name (String.ofList segment)

def components (p : Path) : List Component :=
  let w := p.written
  (if w.absolute then [.root] else if w.dotted then [.here] else []) ++
    (w.segments.filter (!silent ·)).map Component.ofSegment

def isHere (p : Path) : Bool := p.components == [.here]

def trimSegments (segments : List (List Char)) : List (List Char) :=
  (segments.reverse.dropWhile silent).reverse

def Written.path (w : Written) : Path :=
  let body := ['/'].intercalate w.segments
  if w.absolute then ⟨String.ofList ('/' :: body)⟩
  else if w.dotted then ⟨String.ofList ('.' :: if body.isEmpty then [] else '/' :: body)⟩
  else ⟨String.ofList body⟩

/-- Put a path below another; an absolute path stands alone. -/
def join (p q : Path) : Path :=
  if q.isAbsolute then q
  else if p.text.isEmpty || p.text.toList.getLast? == some '/' then ⟨p.text ++ q.text⟩
  else ⟨p.text ++ "/" ++ q.text⟩

/-- The path without its last component; the file system root and the empty path have none. -/
def parent? (p : Path) : Option Path :=
  let w := p.written
  match trimSegments w.segments with
  | [] => if w.dotted then some ⟨""⟩ else none
  | segments => some { w with segments := trimSegments segments.dropLast }.path

def upward : Nat → Path → List Path
  | 0, _ => []
  | n + 1, p => p :: (p.parent?.map (upward n)).getD []

def ancestors (p : Path) : List Path :=
  upward (p.components.length + 1) p

def dropComponents : Nat → List (List Char) → List (List Char)
  | _, [] => []
  | n, s :: rest =>
    if silent s then dropComponents n rest
    else match n with
      | 0 => s :: rest
      | n + 1 => dropComponents n rest

/-- What follows `base` in a path, compared by components. -/
def below? (base p : Path) : Option Path :=
  let front := base.components
  if front.isPrefixOf p.components then
    let w := p.written
    let body := trimSegments w.segments
    if front.isEmpty then some { w with segments := body }.path
    else
      let marked := w.absolute || w.dotted
      let count := if marked then front.length - 1 else front.length
      some ⟨String.ofList (['/'].intercalate (dropComponents count body))⟩
  else none

/-- A path as seen from `base`, or unchanged if it does not lie below. -/
def relativeTo (base p : Path) : Path :=
  (below? base p).getD p

def fileName? (p : Path) : Option String :=
  match p.components.getLast? with
  | some (.name s) => some s
  | _ => none

/-- What follows the last dot of the file name; a leading dot does not count. -/
def extension? (p : Path) : Option String := do
  let name ← p.fileName?
  let (stem, ext) ← Text.cutLast? '.' name.toList
  if stem.isEmpty then none else some (String.ofList ext)

def compareComponents : List Component → List Component → Ordering
  | [], [] => .eq
  | [], _ :: _ => .lt
  | _ :: _, [] => .gt
  | a :: as, b :: bs => (a.compare b).then (compareComponents as bs)

def compare (p q : Path) : Ordering :=
  compareComponents p.components q.components

def le (p q : Path) : Bool := (p.compare q).isLE

end Path
end CoroutineCheck

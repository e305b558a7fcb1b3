import CoroutineCheck.Path
import CoroutineCheck.Text.Lines
/-!
# File trees

A directory tree as a value, and the way a path leads through it from a working directory. The
content of a file is text or bytes that are no text. Symbolic links are left out, so that a file stands at
one place only.
-/
namespace CoroutineCheck

inductive Content where
  | text (s : String)
  | binary (bytes : List UInt8)
deriving DecidableEq, Repr, Inhabited

namespace Content

def text? : Content → Option String
  | text s => some s
  | binary _ => none

private def splitBytes (sep : UInt8) : List UInt8 → List (List UInt8)
  | [] => [[]]
  | b :: bs =>
    if b = sep then [] :: splitBytes sep bs
    else
      match splitBytes sep bs with
      | [] => [[b]]
      | l :: ls => (b :: l) :: ls

private def decode? (bytes : List UInt8) : Option String :=
  String.fromUTF8? ⟨bytes.toArray⟩

private def decodeLines : List (List UInt8) → List (List Char)
  | [] => []
  | [last] => if last.isEmpty then [] else ((decode? last).map String.toList).toList
  | line :: rest =>
    match decode? line with
    | some s => (Text.before? ['\r'] s.toList).getD s.toList :: decodeLines rest
    | none => []

def readableLines : Content → List (List Char)
  | text s => Text.lines s.toList
  | binary bytes => decodeLines (splitBytes 0x0A bytes)

def firstLine (c : Content) : Except Unit (Option (List Char)) :=
  match c.readableLines, c with
  | line :: _, _ => .ok (some line)
  | [], text _ => .ok none
  | [], binary _ => .error ()

end Content

inductive FileTree where
  | file (content : Content)
  | dir (entries : List (String × FileTree))
deriving Repr, Inhabited

namespace FileTree

def isDir : FileTree → Bool
  | dir _ => true
  | file _ => false

def content? : FileTree → Option Content
  | file c => some c
  | dir _ => none

def entries : FileTree → List (String × FileTree)
  | dir es => es
  | file _ => []

/-- What stands at the end of a list of names. -/
def at? : List String → FileTree → Option FileTree
  | [], t => some t
  | name :: rest, t => (t.entries.lookup name).bind (at? rest)

def set (name : String) (t : FileTree) (es : List (String × FileTree)) :
    List (String × FileTree) :=
  if (es.lookup name).isSome then es.map fun e => if e.1 == name then (name, t) else e
  else es ++ [(name, t)]

/-- Change what stands at the end of a list of names; directories on the way are made as needed. -/
def update (change : Option FileTree → FileTree) : List String → Option FileTree → FileTree
  | [], t => change t
  | name :: rest, t =>
    let es := (t.map entries).getD []
    dir (set name (update change rest (es.lookup name)) es)

def write (names : List String) (c : Content) (t : FileTree) : FileTree :=
  update (fun _ => file c) names (some t)

def makeDir (names : List String) (t : FileTree) : FileTree :=
  update (fun old => old.getD (dir [])) names (some t)

/-- Follow the segments of a path. Every segment, also one that stands for no component, must leave
a directory. -/
def follow (t : FileTree) : (here : List String) → List (List Char) → Option (List String)
  | here, [] => some here
  | here, s :: rest =>
    match at? here t with
    | some (dir es) =>
      if Path.silent s then follow t here rest
      else if s == ['.', '.'] then follow t here.dropLast rest
      else
        let name := String.ofList s
        if (es.lookup name).isSome then follow t (here ++ [name]) rest else none
    | _ => none

end FileTree

structure Disk where
  tree : FileTree
  directory : List String
deriving Repr

namespace Disk

def directoryPath (d : Disk) : Path :=
  ⟨"/" ++ "/".intercalate d.directory⟩

def absolute (d : Disk) (p : Path) : Path :=
  d.directoryPath.join p

/-- The names that lead to what a path stands for. The empty path stands for nothing. -/
def locate? (d : Disk) (p : Path) : Option (List String) :=
  if p.text.isEmpty then none
  else d.tree.follow (if p.isAbsolute then [] else d.directory) (Text.pieces '/' p.text.toList)

def find? (d : Disk) (p : Path) : Option FileTree := do
  FileTree.at? (← d.locate? p) d.tree

def isFile (d : Disk) (p : Path) : Bool :=
  ((d.find? p).bind FileTree.content?).isSome

def read? (d : Disk) (p : Path) : Option String := do
  (← (← d.find? p).content?).text?

/-- Where a file written to a path stands: at the place of an old one, or new in its directory. -/
def place? (d : Disk) (p : Path) : Option (List String) :=
  (d.locate? p).or do
    let parent ← p.parent?
    let names ← if parent.text.isEmpty then some d.directory else d.locate? parent
    return names ++ [← p.fileName?]

def write (d : Disk) (p : Path) (text : String) : Disk :=
  match d.place? p with
  | some names => { d with tree := d.tree.write names (.text text) }
  | none => d

end Disk
end CoroutineCheck

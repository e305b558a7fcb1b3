import CoroutineCheck.FileTree.Basic
import CoroutineCheck.FileTree.IgnorePattern
import CoroutineCheck.Text.Blank
/-!
# Ignore files

A line of an ignore file names paths to leave out, or with a `!` in front paths to keep; the last
line that matches decides. A line without a separator applies to names at any depth below the file's
directory, one that ends in a separator to directories only.
-/
namespace CoroutineCheck

inductive Verdict where
  | ignored
  | kept
deriving DecidableEq, Repr

structure IgnoreRule where
  verdict : Verdict
  onlyDirectories : Bool
  pattern : IgnorePattern

namespace IgnoreRule

private def stripMarks : List Char → Verdict × Bool × List Char
  | '\\' :: '!' :: rest => (.ignored, false, '!' :: rest)
  | '\\' :: '#' :: rest => (.ignored, false, '#' :: rest)
  | '!' :: '/' :: rest => (.kept, true, rest)
  | '!' :: rest => (.kept, false, rest)
  | '/' :: rest => (.ignored, true, rest)
  | cs => (.ignored, false, cs)

/-- Take a separator off the end, with a backslash that stands before it. -/
private def stripSlash (cs : List Char) : Bool × List Char :=
  match Text.before? ['/'] cs with
  | some front => (true, (Text.before? ['\\'] front).getD front)
  | none => (false, cs)

private def anyDepth : List Char := ['*', '*', '/']

private def widen (anchored : Bool) (cs : List Char) : List Char :=
  let cs :=
    if anchored || cs.contains '/' || cs == ['*', '*'] then cs else anyDepth ++ cs
  if (Text.before? ['/', '*', '*'] cs).isSome then cs ++ ['/', '*'] else cs

/-- What remains of a line: nothing of a comment, and no blanks at the end unless one is escaped. -/
private def significant (line : List Char) : List Char :=
  if line.head? == some '#' then []
  else if (Text.before? ['\\', ' '] line).isSome then line
  else Text.trimRight line

/-- The rule of a line: none for a line that says nothing, an error for one that cannot be read. -/
def ofLine (line : List Char) : Except Unit (Option IgnoreRule) :=
  match significant line with
  | [] => .ok none
  | cs =>
    let (verdict, anchored, cs) := stripMarks cs
    let (onlyDirectories, cs) := stripSlash cs
    match IgnorePattern.ofText? (widen anchored cs) with
    | some p => .ok (some ⟨verdict, onlyDirectories, p⟩)
    | none => .error ()

def isMatch (r : IgnoreRule) (path : List Char) (isDir : Bool) : Bool :=
  (!r.onlyDirectories || isDir) && r.pattern.isMatch path

end IgnoreRule

structure IgnoreFile where
  rules : List IgnoreRule
  readable : Bool

namespace IgnoreFile

def empty : IgnoreFile := ⟨[], true⟩

private def stripMark : List (List Char) → List (List Char)
  | line :: rest => line.dropWhile (· == '\uFEFF') :: rest
  | [] => []

def ofContent (c : Content) : IgnoreFile :=
  let read := (stripMark c.readableLines).map IgnoreRule.ofLine
  ⟨read.filterMap fun r => r.toOption.join, read.all fun r => r.toOption.isSome⟩

def verdict? (f : IgnoreFile) (path : List Char) (isDir : Bool) : Option Verdict :=
  (f.rules.reverse.find? (·.isMatch path isDir)).map IgnoreRule.verdict

end IgnoreFile
end CoroutineCheck

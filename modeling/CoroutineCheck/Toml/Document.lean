import CoroutineCheck.Toml.Quoted
import CoroutineCheck.Toml.Scalar
import CoroutineCheck.Toml.Section
/-!
# TOML documents

`Toml.read?` reads a whole document into its table of values. Arrays and inline tables nest at most
79 deep, and a key has at most 79 parts.
-/
namespace CoroutineCheck.Toml

def depthLimit : Nat := 79

/-- A reader takes something off the front of a text and returns the rest. -/
abbrev Reader (α : Type) := List Char → Option (α × List Char)

private def isSpace (c : Char) : Bool := c == ' ' || c == '\t'

private def dropSpaces (cs : List Char) : List Char := cs.dropWhile isSpace

private def skipLines (inComment : Bool) : List Char → List Char
  | [] => []
  | '\n' :: rest => skipLines false rest
  | '\r' :: '\n' :: rest => skipLines false rest
  | c :: rest =>
    if inComment then (if isPlain c then skipLines true rest else c :: rest)
    else if c == '#' then skipLines true rest
    else if isSpace c then skipLines false rest
    else c :: rest

private def lineEnd? (cs : List Char) : Option (List Char) :=
  let rest := match dropSpaces cs with
    | '#' :: comment => comment.dropWhile isPlain
    | rest => rest
  match rest with
  | [] => some []
  | '\n' :: rest => some rest
  | '\r' :: '\n' :: rest => some rest
  | _ => none

private def isKeyChar (c : Char) : Bool := c.isAlphanum || c == '_' || c == '-'

private def keyPart? : Reader String
  | '"' :: rest => (basic? rest).map fun p => (String.ofList p.1, p.2)
  | '\'' :: rest => (literal? rest).map fun p => (String.ofList p.1, p.2)
  | cs =>
    let name := cs.takeWhile isKeyChar
    if name.isEmpty then none else some (String.ofList name, cs.dropWhile isKeyChar)

/-- A key of a bounded number of parts with dots between them; blanks may stand around each part. -/
private def key? : Nat → Reader (List String)
  | 0, _ => none
  | n + 1, cs => do
    let (k, rest) ← keyPart? (dropSpaces cs)
    match dropSpaces rest with
    | '.' :: rest => do
      let (ks, rest) ← key? n rest
      return (k :: ks, rest)
    | rest => return ([k], rest)

/-- A run without quotes. A time of day may follow a date after a blank. -/
def word? : Reader Value := fun cs =>
  let word := cs.takeWhile isWordChar
  let rest := cs.dropWhile isWordChar
  let long := match rest with
    | ' ' :: more =>
      (Datetime.ofText? .document (word ++ ' ' :: more.takeWhile isWordChar)).map fun d =>
        (Value.datetime d, more.dropWhile isWordChar)
    | _ => none
  long.or ((scalar? word).map fun v => (v, rest))

def items? (value : Reader Value) : Nat → Reader (List Value)
  | 0, _ => none
  | n + 1, cs =>
    match skipLines false cs with
    | ']' :: rest => some ([], rest)
    | cs => do
      let (v, rest) ← value cs
      match skipLines false rest with
      | ',' :: rest => do
        let (vs, rest) ← items? value n rest
        return (v :: vs, rest)
      | ']' :: rest => return ([v], rest)
      | _ => none

def pair? (value : Reader Value) : Reader (List String × Value) := fun cs => do
  let (k, rest) ← key? depthLimit cs
  let rest ← Text.after? ['='] rest
  let (v, rest) ← value (dropSpaces rest)
  return ((k, v), rest)

/-- The pairs of an inline table, at least one, behind those already read. -/
def pairs? (value : Reader Value) : Nat → Entries → Reader Entries
  | 0, _, _ => none
  | n + 1, es, cs => do
    let ((k, v), rest) ← pair? value cs
    let es ← es.insert? k v
    match dropSpaces rest with
    | ',' :: rest => pairs? value n es rest
    | '\x7d' :: rest => return (es, rest)
    | _ => none

/-- A value, given a reader for the values inside it if there may be any. -/
def valueOver? (inner : Option (Reader Value)) : Reader Value := fun cs =>
  match cs with
  | '"' :: _ => (quoted? cs).map fun p => (.string (String.ofList p.1), p.2)
  | '\'' :: _ => (quoted? cs).map fun p => (.string (String.ofList p.1), p.2)
  | '[' :: rest => do
    let (vs, rest) ← items? (← inner) cs.length rest
    return (.array vs, rest)
  | '\x7b' :: rest => do
    let value ← inner
    match dropSpaces rest with
    | '\x7d' :: rest => return (.table [], rest)
    | rest => do
      let (es, rest) ← pairs? value cs.length [] rest
      return (.table (Item.entryValues es), rest)
  | _ => word? cs

def value? : (depth : Nat) → Reader Value
  | 0 => valueOver? none
  | depth + 1 => valueOver? (some (value? depth))

/-- A document in the course of reading: its entries, and the header that the next ones belong to. -/
structure Progress where
  header : List String
  entries : Entries

private def header? (close : List Char) : Reader (List String) := fun cs => do
  let (path, rest) ← key? depthLimit cs
  return (path, ← Text.after? close rest)

def line? (p : Progress) : Reader Progress := fun cs =>
  match cs with
  | '[' :: '[' :: rest => do
    let (path, rest) ← header? [']', ']'] rest
    return (⟨path, ← p.entries.openListed? path⟩, rest)
  | '[' :: rest => do
    let (path, rest) ← header? [']'] rest
    return (⟨path, ← p.entries.openTable? path⟩, rest)
  | _ => do
    let ((k, v), rest) ← pair? (value? depthLimit) cs
    return ({ p with entries := ← p.entries.insertUnder? p.header k v }, rest)

/-- All lines, of which there are at most as many as characters. -/
def lines? : Nat → Progress → List Char → Option Progress
  | 0, p, cs => if cs.isEmpty then some p else none
  | n + 1, p, cs =>
    match skipLines false cs with
    | [] => some p
    | cs => do
      let (p, rest) ← line? p cs
      lines? n p (← lineEnd? rest)

def read? (text : String) : Option (List (String × Value)) :=
  let cs := match text.toList with
    | '\uFEFF' :: rest => rest
    | cs => cs
  (lines? cs.length ⟨[], []⟩ cs).map fun p => Item.entryValues p.entries

end CoroutineCheck.Toml

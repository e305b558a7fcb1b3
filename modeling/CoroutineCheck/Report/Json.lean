import CoroutineCheck.Report.Result
/-!
# Results as JSON

A small JSON value with a printer that puts every element on a line of its own, and the results of a
check written with it. Keys stand in a fixed order; a violation without a fix has no such key.
-/
namespace CoroutineCheck

inductive JsonText where
  | string (s : String)
  | number (n : Nat)
  | list (items : List JsonText)
  | object (entries : List (String × JsonText))
deriving Repr, Inhabited

namespace JsonText

private def hexDigit (n : Nat) : Char :=
  if n < 10 then Char.ofNat ('0'.toNat + n) else Char.ofNat ('a'.toNat + n - 10)

/-- A character inside quotes. Control characters, quotes and backslashes are escaped. -/
def escape (c : Char) : List Char :=
  if c == '"' then ['\\', '"']
  else if c == '\\' then ['\\', '\\']
  else if c == '\n' then ['\\', 'n']
  else if c == '\r' then ['\\', 'r']
  else if c == '\t' then ['\\', 't']
  else if c == '\x08' then ['\\', 'b']
  else if c == '\x0c' then ['\\', 'f']
  else if c < ' ' then ['\\', 'u', '0', '0', hexDigit (c.toNat / 16), hexDigit (c.toNat % 16)]
  else [c]

def quote (s : String) : String :=
  String.ofList ('"' :: (s.toList.flatMap escape ++ ['"']))

private def indent (depth : Nat) : String :=
  String.ofList (List.replicate (2 * depth) ' ')

mutual

def render (depth : Nat) : JsonText → String
  | string s => quote s
  | number n => toString n
  | list [] => "[]"
  | list (x :: xs) => "[\n" ++ renderItems (depth + 1) (x :: xs) ++ "\n" ++ indent depth ++ "]"
  | object [] => "\x7b\x7d"
  | object (e :: es) =>
    "\x7b\n" ++ renderEntries (depth + 1) (e :: es) ++ "\n" ++ indent depth ++ "\x7d"

def renderItems (depth : Nat) : List JsonText → String
  | [] => ""
  | [x] => indent depth ++ render depth x
  | x :: xs => indent depth ++ render depth x ++ ",\n" ++ renderItems depth xs

def renderEntries (depth : Nat) : List (String × JsonText) → String
  | [] => ""
  | [(k, v)] => indent depth ++ quote k ++ ": " ++ render depth v
  | (k, v) :: es =>
    indent depth ++ quote k ++ ": " ++ render depth v ++ ",\n" ++ renderEntries depth es

end

end JsonText

def Edit.json (e : Edit) : JsonText :=
  .object [("span", .object [("start", .number e.span.start), ("end", .number e.span.stop)]),
    ("replacement", .string e.replacement)]

def Fix.json (f : Fix) : JsonText :=
  .object [("name", .string f.name), ("edits", .list (f.edits.map Edit.json))]

def Location.json (l : Location) : JsonText :=
  .object [("file", .string l.file.text), ("line", .number l.line), ("column", .number l.column),
    ("offset", .number l.offset), ("length", .number l.length)]

def Violation.json (v : Violation) : JsonText :=
  .object ([("code", .string v.code), ("rule", .string v.rule),
    ("severity", .string v.severity.label), ("location", v.location.json),
    ("message", .string v.message)] ++
    match v.fix with
    | some f => [("fix", f.json)]
    | none => [])

def LintResult.json (r : LintResult) : JsonText :=
  .object [("violations", .list (r.violations.map Violation.json)),
    ("files_checked", .number r.filesChecked)]

end CoroutineCheck

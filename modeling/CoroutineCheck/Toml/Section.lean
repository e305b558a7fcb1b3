import CoroutineCheck.Toml.Value
/-!
# Tables under construction

A document defines its tables in pieces: by headers, by dotted keys, and by headers of tables below
them. What may still be added to a table depends on how it came to be.
-/
namespace CoroutineCheck.Toml

/-- How a table came to be: by a header of its own, as part of the way to another header, or as part
of a dotted key. -/
inductive Origin where
  | stated
  | implied
  | dotted
deriving DecidableEq, Repr

/-- What a key stands for: a value, which is closed, a table, or a list of tables of which the last
one is open. -/
inductive Item where
  | value (v : Value)
  | table (origin : Origin) (entries : List (String × Item))
  | tables (closed : List (List (String × Item))) (last : List (String × Item))
deriving Inhabited

abbrev Entries := List (String × Item)

namespace Item

mutual

def toValue : Item → Value
  | value v => v
  | table _ es => .table (entryValues es)
  | tables closed last => .array (tableValues closed ++ [.table (entryValues last)])

def entryValues : List (String × Item) → List (String × Value)
  | [] => []
  | (k, i) :: es => (k, toValue i) :: entryValues es

def tableValues : List (List (String × Item)) → List Value
  | [] => []
  | es :: rest => .table (entryValues es) :: tableValues rest

end

end Item

namespace Entries

def find? (es : Entries) (key : String) : Option Item :=
  es.lookup key

def replace (key : String) (i : Item) (es : Entries) : Entries :=
  es.map fun e => if e.1 == key then (key, i) else e

/-- Change the table at the end of a path, making the tables on the way that are missing. A dotted key
does not enter a table that has a header, and nothing enters a value. -/
def edit (isKey : Bool) (change : Origin → Entries → Option Entries) :
    List String → Origin → Entries → Option Entries
  | [], origin, es => change origin es
  | k :: path, _, es =>
    match es.find? k with
    | none => do
      let origin := if isKey then .dotted else .implied
      let sub ← edit isKey change path origin []
      return es ++ [(k, .table origin sub)]
    | some (.value _) => none
    | some (.table origin sub) =>
      if isKey && origin == .stated then none
      else (edit isKey change path origin sub).map fun sub => es.replace k (.table origin sub)
    | some (.tables closed last) =>
      (edit isKey change path .stated last).map fun last => es.replace k (.tables closed last)

private def endOf? (path : List String) : Option (List String × String) :=
  path.getLast?.map fun k => (path.dropLast, k)

/-- Add a value under a key, which may be dotted. The key must be new, and a dotted key adds to tables
made by dotted keys only. -/
def insert? (key : List String) (v : Value) (es : Entries) : Option Entries := do
  let (way, k) ← endOf? key
  let add (origin : Origin) (es : Entries) : Option Entries :=
    if (origin == .dotted) == way.isEmpty || (es.find? k).isSome then none
    else some (es ++ [(k, .value v)])
  edit true add way .stated es

/-- Open the table of a header. Only a table that other headers implied may exist already. -/
def openTable? (path : List String) (es : Entries) : Option Entries := do
  let (way, k) ← endOf? path
  let openHere (_ : Origin) (es : Entries) : Option Entries :=
    match es.find? k with
    | none => some (es ++ [(k, .table .stated [])])
    | some (.table .implied sub) => some (es.replace k (.table .stated sub))
    | some _ => none
  edit false openHere way .stated es

def openListed? (path : List String) (es : Entries) : Option Entries := do
  let (way, k) ← endOf? path
  let openHere (_ : Origin) (es : Entries) : Option Entries :=
    match es.find? k with
    | none => some (es ++ [(k, .tables [] [])])
    | some (.tables closed last) => some (es.replace k (.tables (closed ++ [last]) []))
    | some _ => none
  edit false openHere way .stated es

def insertUnder? (header key : List String) (v : Value) (es : Entries) : Option Entries :=
  edit false (fun _ es => es.insert? key v) header .stated es

end Entries
end CoroutineCheck.Toml

import CoroutineCheck.Number.Binary64
import CoroutineCheck.Toml.Datetime
/-!
# TOML values

A date may also be given as a table, under a key of its own.
-/
namespace CoroutineCheck.Toml

inductive Value where
  | string (s : String)
  | integer (n : Int)
  | float (x : Binary64)
  | boolean (b : Bool)
  | datetime (d : Datetime)
  | array (items : List Value)
  | table (entries : List (String × Value))
deriving Repr, Inhabited

namespace Value

def string? : Value → Option String
  | string s => some s
  | _ => none

def boolean? : Value → Option Bool
  | boolean b => some b
  | _ => none

def integer? : Value → Option Int
  | integer n => some n
  | _ => none

def entries? : Value → Option (List (String × Value))
  | table es => some es
  | _ => none

/-- A string, or a date as its text. -/
def text? : Value → Option String
  | string s => some s
  | datetime d => some d.text
  | _ => none

def strings? : Value → Option (List String)
  | array items => items.mapM string?
  | _ => none

def isEmptyContainer : Value → Bool
  | array items => items.isEmpty
  | table es => es.isEmpty
  | _ => false

/-- The name of an alternative, written as a string or as a table with that key and nothing in it. -/
def alternative? : Value → Option String
  | string s => some s
  | table [(name, v)] => if v.isEmptyContainer then some name else none
  | _ => none

def dateKey : String := "$__toml_private_datetime"

private def dateOf? : Value → Option Value
  | string s => (Datetime.ofText? .lenient s.toList).map datetime
  | _ => none

mutual

/-- A value in which the tables that start with the key of dates are dates. Such a table must hold the
text of a date there, and nothing else if it is to be exact. -/
def withDates? (exact : Bool) : Value → Option Value
  | array items => (itemsWithDates? exact items).map array
  | table [] => some (table [])
  | table ((key, v) :: rest) =>
    if key == dateKey then (if exact && !rest.isEmpty then none else dateOf? v)
    else (entriesWithDates? exact ((key, v) :: rest)).map table
  | v => some v

def itemsWithDates? (exact : Bool) : List Value → Option (List Value)
  | [] => some []
  | v :: rest => do return (← withDates? exact v) :: (← itemsWithDates? exact rest)

def entriesWithDates? (exact : Bool) :
    List (String × Value) → Option (List (String × Value))
  | [] => some []
  | (key, v) :: rest => do
    return (key, ← withDates? exact v) :: (← entriesWithDates? exact rest)

end

end Value
end CoroutineCheck.Toml

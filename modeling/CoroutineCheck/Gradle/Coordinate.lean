import CoroutineCheck.Text.Blank
import CoroutineCheck.Text.Search
import CoroutineCheck.Toml.Document
/-!
# Library coordinates in build files

A coordinate is `group:name` or `group:name:version`. Build scripts are not interpreted: every quoted
text that is a coordinate counts. A version catalogue lists libraries in a table.
-/
namespace CoroutineCheck.Gradle

/-- Letters, digits, dots, hyphens and underscores, at least one of them. -/
def isName (cs : List Char) : Bool :=
  !cs.isEmpty && cs.all fun c => c.isAlphanum || c == '.' || c == '-' || c == '_'

def isVersion (cs : List Char) : Bool :=
  !cs.isEmpty && cs.all (!Text.isBlank ·)

def isCoordinate (text : List Char) : Bool :=
  match Text.pieces ':' text with
  | [group, name] => isName group && isName name
  | [group, name, version] => isName group && isName name && isVersion version
  | _ => false

/-- The quoted texts of a script, given the open quote and the text behind it in reverse. A quote is
closed by the next one of its kind, and a quote that nothing closes has no text. -/
def literalsFrom : Option (Char × List Char) → List Char → List (List Char)
  | _, [] => []
  | none, c :: cs =>
    if c == '"' || c == '\'' then literalsFrom (some (c, [])) cs else literalsFrom none cs
  | some (quote, taken), c :: cs =>
    if c == quote then taken.reverse :: literalsFrom none cs
    else literalsFrom (some (quote, c :: taken)) cs

def literals (script : List Char) : List (List Char) :=
  literalsFrom none script

def scriptCoordinates (script : String) : List String :=
  ((literals script.toList).filter isCoordinate).map String.ofList

/-- What a library of a catalogue stands for: a text, a `module`, or a `group` and a `name`. -/
def libraryText? : Toml.Value → Option String
  | .string s => some s
  | .table es =>
    let text (key : String) := (es.lookup key).bind Toml.Value.string?
    match text "module" with
    | some m => some m
    | none => do return (← text "group") ++ ":" ++ (← text "name")
  | _ => none

def catalogCoordinates? (catalog : String) : Option (List String) := do
  let es ← Toml.Value.entriesWithDates? false (← Toml.read? catalog)
  let libraries := ((es.lookup "libraries").bind Toml.Value.entries?).getD []
  return (libraries.filterMap fun l => libraryText? l.2).filter fun s => isCoordinate s.toList

end CoroutineCheck.Gradle

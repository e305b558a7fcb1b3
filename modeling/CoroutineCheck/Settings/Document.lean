import CoroutineCheck.Settings.Basic
import CoroutineCheck.Toml.Document
/-!
# Settings from a document

Keys that mean nothing are left alone, except that all keys of a rule are options of it. A key with
a value of the wrong type makes the whole document unusable.
-/
namespace CoroutineCheck.Settings

/-- The entries of a table; a date counts as a table with its text in it. -/
def entries? : Toml.Value → Option (List (String × Toml.Value))
  | .table es => some es
  | .datetime d => some [(Toml.Value.dateKey, .string d.text)]
  | _ => none

/-- The fields of a section by name. A section written as an array gives them in order. -/
def fields? (names : List String) : Toml.Value → Option (List (String × Toml.Value))
  | .array items => some (names.zip items)
  | v => entries? v

def field? {α : Type} (es : List (String × Toml.Value)) (key : String)
    (read : Toml.Value → Option α) (otherwise : α) : Option α :=
  match es.lookup key with
  | some v => read v
  | none => some otherwise

def severityOf? (v : Toml.Value) : Option Severity := do
  Severity.ofLabel? (← v.alternative?)

def scope? (v : Toml.Value) : Option Scope := do
  let es ← fields? ["root", "exclude", "respect_gitignore"] v
  return {
    root := ⟨← field? es "root" Toml.Value.string? "."⟩
    exclude := ← field? es "exclude" Toml.Value.strings? []
    respectIgnoreFiles := ← field? es "respect_gitignore" Toml.Value.boolean? true }

def project? (v : Toml.Value) : Option ProjectFacts := do
  let es ← fields? ["dependencies", "discover_gradle"] v
  return {
    dependencies := ← field? es "dependencies" Toml.Value.strings? []
    discoverGradle := ← field? es "discover_gradle" Toml.Value.boolean? true }

def ruleOf? (v : Toml.Value) : Option RuleSettings := do
  let es ← entries? v
  let others := es.filter fun e => e.1 != "enabled" && e.1 != "severity"
  return {
    enabled := ← field? es "enabled" (fun v => v.boolean?.map some) none
    severity := ← field? es "severity" (fun v => (severityOf? v).map some) none
    options := ← Toml.Value.entriesWithDates? true others }

def rules? (v : Toml.Value) : Option (List (String × RuleSettings)) := do
  (← entries? v).mapM fun e => (ruleOf? e.2).map (Prod.mk e.1)

/-- Settings from the text of a document, if it is one and its values have the right types. -/
def read? (text : String) : Option Settings := do
  let es ← Toml.read? text
  return {
    failOn := ← field? es "fail_on" (fun v => (severityOf? v).map some) none
    scope := ← field? es "analyzer" scope? standard.scope
    project := ← field? es "project" project? standard.project
    rules := ← field? es "rules" rules? [] }

end CoroutineCheck.Settings

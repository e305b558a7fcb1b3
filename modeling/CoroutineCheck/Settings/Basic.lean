import CoroutineCheck.Report.Basic
import CoroutineCheck.Symbol
import CoroutineCheck.Toml.Value
/-!
# Settings

What a project may set: which severity makes a check fail, where to look and what to leave out, the
project's dependencies, and per rule whether it runs, its severity and further options. Rules are
found by their id, exactly if possible and otherwise without regard to case.
-/
namespace CoroutineCheck

structure RuleSettings where
  enabled : Option Bool
  severity : Option Severity
  options : List (String × Toml.Value)
deriving Repr, Inhabited

namespace RuleSettings

def option? (r : RuleSettings) (key : String) : Option Toml.Value :=
  r.options.lookup key

/-- A truth value, or the default if the option is missing or something else. -/
def boolean (r : RuleSettings) (key : String) (otherwise : Bool) : Bool :=
  ((r.option? key).bind Toml.Value.boolean?).getD otherwise

def string (r : RuleSettings) (key : String) (otherwise : String) : String :=
  ((r.option? key).bind Toml.Value.string?).getD otherwise

def integer? (r : RuleSettings) (key : String) : Option Int :=
  (r.option? key).bind Toml.Value.integer?

/-- The texts of an array; a date counts as its text. -/
def strings? (r : RuleSettings) (key : String) : Option (List String) := do
  match ← r.option? key with
  | .array items => items.mapM Toml.Value.text?
  | _ => none

def severityOption? (r : RuleSettings) (key : String) : Option Severity := do
  Severity.ofLabel? (← (← r.option? key).alternative?)

def supertypePolicy (r : RuleSettings) : SupertypePolicy :=
  (do SupertypePolicy.ofLabel? (← (← r.option? "supertype_policy").alternative?)).getD .direct

end RuleSettings

structure Scope where
  root : Path
  exclude : List String
  respectIgnoreFiles : Bool
deriving DecidableEq, Repr

structure ProjectFacts where
  dependencies : List String
  discoverGradle : Bool
deriving DecidableEq, Repr

structure Settings where
  failOn : Option Severity
  scope : Scope
  project : ProjectFacts
  rules : List (String × RuleSettings)
deriving Repr

namespace Settings

/-- The settings of a project that sets nothing. Build directories are left out. -/
def standard : Settings where
  failOn := none
  scope := ⟨⟨"."⟩, ["**/build/**", "**/.gradle/**"], true⟩
  project := ⟨[], true⟩
  rules := []

def rule? (s : Settings) (id : String) : Option RuleSettings :=
  match s.rules.lookup id with
  | some r => some r
  | none =>
    (s.rules.find? fun r => Text.sameIgnoringCase r.1.toList id.toList).map Prod.snd

def isEnabled (s : Settings) (id : String) : Bool :=
  ((s.rule? id).bind RuleSettings.enabled).getD true

def severity? (s : Settings) (id : String) : Option Severity :=
  (s.rule? id).bind RuleSettings.severity

def policy (s : Settings) (id : String) : SupertypePolicy :=
  ((s.rule? id).map RuleSettings.supertypePolicy).getD .direct

def failThreshold (s : Settings) : Severity :=
  s.failOn.getD .error

def dependencies (s : Settings) : List Dependency :=
  s.project.dependencies.map Dependency.mk

end Settings
end CoroutineCheck

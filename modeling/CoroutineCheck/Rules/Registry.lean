import CoroutineCheck.Rules.GlobalScopeUsage
import CoroutineCheck.Rules.JobInBuilderUsage
import CoroutineCheck.Settings.Basic
/-!
# The rules

All rules in their fixed order, and the ways to choose among them.
-/
namespace CoroutineCheck.Rules

structure Rule where
  issue : Issue
  detector : SupertypePolicy → Detector

def all : List Rule :=
  [⟨GlobalScopeUsage.issue, GlobalScopeUsage.detector⟩,
   ⟨JobInBuilderUsage.issue, JobInBuilderUsage.detector⟩]

def Rule.configured (s : Settings) (r : Rule) : Detector :=
  r.detector (s.policy r.issue.id)

def plain : List Detector :=
  all.map (·.detector .direct)

def configured (s : Settings) : List Detector :=
  all.map (Rule.configured s)

/-- Whether a text names a rule, by id or by name. -/
def Rule.isNamed (r : Rule) (name : String) : Bool :=
  Text.sameIgnoringCase r.issue.id.toList name.toList ||
    Text.sameIgnoringCase r.issue.name.toList name.toList

def selected (s : Settings) (names : List String) : List Detector :=
  let names := names.map fun n => String.ofList (Text.trim n.toList)
  (all.filter fun r => names.any r.isNamed).map (Rule.configured s)

end CoroutineCheck.Rules

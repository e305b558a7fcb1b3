import CoroutineCheck.Cli.Outcome
import CoroutineCheck.Rules.Registry
/-!
# The list-rules command
-/
namespace CoroutineCheck.Cli

private def padded (width : Nat) (s : String) : String :=
  s ++ String.ofList (List.replicate (width - s.length) ' ')

def ruleEntry (i : Issue) : String :=
  let columns := [padded 20 i.id, padded 24 i.name, i.severity.label,
    padded 8 (toString i.priority), i.category.name]
  " ".intercalate columns ++ "\n  " ++ i.explanation ++ "\n"

def ruleListHeader : String :=
  let columns := [padded 20 "Id", padded 24 "Name", padded 9 "Severity", padded 8 "Priority", "Category"]
  " ".intercalate columns ++ "\n" ++ String.ofList (List.replicate 80 '-') ++ "\n"

def ruleListFooter : String :=
  "\nUse --rules to run specific rules, e.g.:\n" ++
  "  coro-lint check --rules GlobalScopeUsage\n" ++
  "  coro-lint check --rules job-in-builder-usage\n" ++
  "\nSuppress a finding with @Suppress(\"<Id>\") on the enclosing class\n" ++
  "or a `// coro-lint: allow(<Id>)` comment on the line.\n"

def ruleList (issues : List Issue) : String :=
  "Available rules:\n\n" ++ ruleListHeader ++ String.join (issues.map ruleEntry) ++ ruleListFooter

def listRules : Outcome := .printed (ruleList (Rules.all.map Rules.Rule.issue))

end CoroutineCheck.Cli

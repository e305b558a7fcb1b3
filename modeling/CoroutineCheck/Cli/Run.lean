import CoroutineCheck.Cli.Check
import CoroutineCheck.Cli.Help
import CoroutineCheck.Cli.Init
import CoroutineCheck.Cli.RuleList
/-!
# Running the program

The whole program as a function of its arguments, the disk and the parser.
-/
namespace CoroutineCheck.Cli

def Command.run (h : Host) (parser : String → Option Kotlin.Row) (config : Option Path) :
    Command → Outcome
  | check q => q.outcome h (Kotlin.frontend parser) config
  | listRules => Cli.listRules
  | init force => initSettings h.disk force

def Halt.outcome : Halt → Outcome
  | usage => .misused usageNote
  | help topic detailed => .printed (helpText topic detailed)
  | version => .printed versionText

def run (h : Host) (parser : String → Option Kotlin.Row) (args : List String) : Outcome :=
  match Invocation.ofArguments args with
  | .ok i => i.command.run h parser i.config
  | .error halt => halt.outcome

end CoroutineCheck.Cli

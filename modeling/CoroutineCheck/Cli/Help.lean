import CoroutineCheck.Cli.Arguments
/-!
# Help texts
-/
namespace CoroutineCheck.Cli

def programName : String := "coro-lint"

def versionText : String := s!"{programName} 0.2.0\n"

def generalHelp : String :=
  "CLI tool for coro-lint Kotlin coroutine linter\n\n" ++
  "Usage: coro-lint [OPTIONS] <COMMAND>\n\n" ++
  "Commands:\n" ++
  "  check       Run lint checks\n" ++
  "  list-rules  List available rules\n" ++
  "  init        Initialize configuration file\n" ++
  "  help        Print this message or the help of the given subcommand(s)\n\n" ++
  "Options:\n" ++
  "  -v, --verbose          Enable verbose output\n" ++
  "  -c, --config <CONFIG>  Path to configuration file\n" ++
  "  -h, --help             Print help\n" ++
  "  -V, --version          Print version\n"

def checkSummary : String :=
  "Run lint checks\n\n" ++
  "Usage: coro-lint check [OPTIONS] [PATH]\n\n" ++
  "Arguments:\n" ++
  "  [PATH]  Path to analyze (default: current directory) [default: .]\n\n" ++
  "Options:\n" ++
  "  -f, --format <FORMAT>    Output format [default: text] " ++
    "[possible values: text, json, compact, pretty]\n" ++
  "  -v, --verbose            Enable verbose output\n" ++
  "  -c, --config <CONFIG>    Path to configuration file\n" ++
  "      --rules <RULES>      Only run specific rules (comma-separated ids or names)\n" ++
  "  -e, --exclude <EXCLUDE>  Exclude patterns (can be specified multiple times)\n" ++
  "      --fix                Apply available fixes in place\n" ++
  "      --no-gradle          Do not read dependencies from Gradle build files\n" ++
  "  -h, --help               Print help (see more with '--help')\n"

def checkDetails : String :=
  "Run lint checks\n\n" ++
  "Usage: coro-lint check [OPTIONS] [PATH]\n\n" ++
  "Arguments:\n" ++
  "  [PATH]\n" ++
  "          Path to analyze (default: current directory)\n" ++
  "          \n" ++
  "          [default: .]\n\n" ++
  "Options:\n" ++
  "  -f, --format <FORMAT>\n" ++
  "          Output format\n\n" ++
  "          Possible values:\n" ++
  "          - text:    Human-readable text output\n" ++
  "          - json:    JSON output\n" ++
  "          - compact: One-line-per-violation compact format\n" ++
  "          - pretty:  Annotated source snippets\n" ++
  "          \n" ++
  "          [default: text]\n\n" ++
  "  -v, --verbose\n" ++
  "          Enable verbose output\n\n" ++
  "  -c, --config <CONFIG>\n" ++
  "          Path to configuration file\n\n" ++
  "      --rules <RULES>\n" ++
  "          Only run specific rules (comma-separated ids or names)\n\n" ++
  "  -e, --exclude <EXCLUDE>\n" ++
  "          Exclude patterns (can be specified multiple times)\n\n" ++
  "      --fix\n" ++
  "          Apply available fixes in place\n\n" ++
  "      --no-gradle\n" ++
  "          Do not read dependencies from Gradle build files\n\n" ++
  "  -h, --help\n" ++
  "          Print help (see a summary with '-h')\n"

def listRulesHelp : String :=
  "List available rules\n\n" ++
  "Usage: coro-lint list-rules [OPTIONS]\n\n" ++
  "Options:\n" ++
  "  -v, --verbose          Enable verbose output\n" ++
  "  -c, --config <CONFIG>  Path to configuration file\n" ++
  "  -h, --help             Print help\n"

def initHelp : String :=
  "Initialize configuration file\n\n" ++
  "Usage: coro-lint init [OPTIONS]\n\n" ++
  "Options:\n" ++
  "      --force            Overwrite existing config\n" ++
  "  -v, --verbose          Enable verbose output\n" ++
  "  -c, --config <CONFIG>  Path to configuration file\n" ++
  "  -h, --help             Print help\n"

def helpHelp : String :=
  "Print this message or the help of the given subcommand(s)\n\n" ++
  "Usage: coro-lint help [COMMAND]...\n\n" ++
  "Arguments:\n" ++
  "  [COMMAND]...  Print help for the subcommand(s)\n"

def helpText (topic : Option CommandName) (detailed : Bool) : String :=
  match topic with
  | some .check => if detailed then checkDetails else checkSummary
  | some .listRules => listRulesHelp
  | some .init => initHelp
  | some .help => helpHelp
  | none => generalHelp

def usageNote : String :=
  s!"Usage: {programName} [OPTIONS] <COMMAND>. For more information, try '--help'."

end CoroutineCheck.Cli

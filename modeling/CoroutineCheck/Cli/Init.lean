import CoroutineCheck.Cli.Outcome
/-!
# The init command

Writes a settings file with comments into the working directory, over an old one only if forced.
-/
namespace CoroutineCheck.Cli

def initialSettings : String :=
  "# coro-lint configuration\n" ++
  "\n" ++
  "# Lowest severity that fails `coro-lint check` (info, warning, error)\n" ++
  "# fail_on = \"error\"\n" ++
  "\n" ++
  "[analyzer]\n" ++
  "# Glob patterns to exclude from analysis\n" ++
  "exclude = [\n" ++
  "    \"**/build/**\",\n" ++
  "    \"**/.gradle/**\",\n" ++
  "]\n" ++
  "\n" ++
  "# Respect .gitignore files\n" ++
  "respect_gitignore = true\n" ++
  "\n" ++
  "[project]\n" ++
  "# Library coordinates the fixes may rely on, in addition to those found in\n" ++
  "# build.gradle(.kts) and gradle/libs.versions.toml\n" ++
  "dependencies = []\n" ++
  "discover_gradle = true\n" ++
  "\n" ++
  "# Rule configurations\n" ++
  "# Each rule can be enabled/disabled and have its severity overridden\n" ++
  "\n" ++
  "[rules.GlobalScopeUsage]\n" ++
  "enabled = true\n" ++
  "# severity = \"warning\"\n" ++
  "# Match lifecycle owners through direct supertypes only, or the whole hierarchy\n" ++
  "supertype_policy = \"direct\"\n" ++
  "\n" ++
  "[rules.JobInBuilderUsage]\n" ++
  "enabled = true\n" ++
  "supertype_policy = \"direct\"\n"

def initialPath : Path := ⟨"./coro-lint.toml"⟩

private def advice : String :=
  "Created coro-lint.toml\n" ++
  "\nNext steps:\n" ++
  "  1. Edit coro-lint.toml to configure rules\n" ++
  "  2. Run: coro-lint check\n"

private def created : Outcome :=
  { Outcome.printed advice with writes := [(initialPath, initialSettings)] }

def initSettings (d : Disk) (force : Bool) : Outcome :=
  match d.find? initialPath with
  | none => created
  | some (.file _) => if force then created else .failed (.settingsExist initialPath)
  | some (.dir _) =>
    .failed (if force then .unwritable initialPath else .settingsExist initialPath)

end CoroutineCheck.Cli

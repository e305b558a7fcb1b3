import CoroutineCheck.Report.Json
/-!
# Output formats

The texts of a check's result: paragraphs with colours and a summary, JSON, or one line for each
violation. The pretty format is meant for people at a terminal and goes to the standard error.
-/
namespace CoroutineCheck

inductive OutputFormat where
  | text
  | json
  | compact
  | pretty
deriving DecidableEq, Repr, Inhabited

def OutputFormat.label : OutputFormat → String
  | text => "text"
  | json => "json"
  | compact => "compact"
  | pretty => "pretty"

def OutputFormat.ofLabel? (s : String) : Option OutputFormat :=
  [text, json, compact, pretty].find? (·.label == s)

namespace Terminal

private def mark (code : String) : String := "\x1b[" ++ code ++ "m"

def red : String := mark "31"
def green : String := mark "32"
def yellow : String := mark "33"
def blue : String := mark "34"
def plain : String := mark "0"

end Terminal

def Severity.colour : Severity → String
  | error => Terminal.red
  | warning => Terminal.yellow
  | info => Terminal.blue

def Violation.coloured (v : Violation) : String :=
  s!"{v.code} {v.rule} at {v.location.text}\n" ++
    s!"  {v.severity.colour}{v.severity.label}{Terminal.plain}: {v.message}\n" ++
    (match v.fix with
      | some f => s!"  = help: {f.name}\n"
      | none => "") ++
    "\n"

namespace LintResult

def tally (r : LintResult) : String :=
  let errors := r.count .error
  let warnings := r.count .warning
  let infos := r.count .info
  s!"Found {errors} error(s), {warnings} warning(s), {infos} info(s) in {r.filesChecked} file(s)"

def colour (r : LintResult) : String :=
  if 0 < r.count .error then Terminal.red
  else if 0 < r.count .warning then Terminal.yellow
  else Terminal.green

def coloured (r : LintResult) : String :=
  String.join (r.violations.map Violation.coloured) ++
    s!"{r.colour}{r.tally}, {r.fixableCount} fixable{Terminal.plain}\n"

def compact (r : LintResult) : String :=
  String.join (r.violations.map fun v => v.line ++ "\n")

def output (r : LintResult) : OutputFormat → String
  | .text => r.coloured
  | .json => r.json.render 0 ++ "\n"
  | .compact => r.compact
  | .pretty => ""

def notes (r : LintResult) : OutputFormat → List String
  | .pretty =>
    (r.violations.map fun v => s!"{v.location.text}: {v.diagnostic.message}") ++ [r.tally]
  | _ => []

end LintResult
end CoroutineCheck

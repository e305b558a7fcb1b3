import CoroutineCheck.Path
import CoroutineCheck.Report.Output
/-!
# Command-line arguments

Words are read one after the other: options with and without values, short ones also in clusters, then
the command and its operand. The options for the settings file and for more detail may stand on both
sides of the command. The first word that makes no sense ends the reading, as does a request for help.
-/
namespace CoroutineCheck.Cli

structure CheckRequest where
  path : Path
  format : OutputFormat
  rules : Option String
  excludes : List String
  fix : Bool
  discoverGradle : Bool
deriving DecidableEq, Repr

inductive Command where
  | check (r : CheckRequest)
  | listRules
  | init (force : Bool)
deriving DecidableEq, Repr

structure Invocation where
  verbose : Bool
  config : Option Path
  command : Command
deriving DecidableEq, Repr

inductive CommandName where
  | check
  | listRules
  | init
  | help
deriving DecidableEq, Repr

def CommandName.label : CommandName → String
  | check => "check"
  | listRules => "list-rules"
  | init => "init"
  | help => "help"

def CommandName.ofLabel? (s : String) : Option CommandName :=
  [check, listRules, init, help].find? (·.label == s)

/-- Why there is no command to run. Help comes in short and in detail. -/
inductive Halt where
  | usage
  | help (topic : Option CommandName) (detailed : Bool)
  | version
deriving DecidableEq, Repr

inductive Key where
  | verbose
  | config
  | format
  | rules
  | exclude
  | fix
  | noGradle
  | force
  | help
  | version
deriving DecidableEq, Repr

namespace Key

def long : Key → String
  | verbose => "verbose"
  | config => "config"
  | format => "format"
  | rules => "rules"
  | exclude => "exclude"
  | fix => "fix"
  | noGradle => "no-gradle"
  | force => "force"
  | help => "help"
  | version => "version"

def short? : Key → Option Char
  | verbose => some 'v'
  | config => some 'c'
  | format => some 'f'
  | exclude => some 'e'
  | help => some 'h'
  | version => some 'V'
  | rules => none
  | fix => none
  | noGradle => none
  | force => none

def takesValue : Key → Bool
  | config => true
  | format => true
  | rules => true
  | exclude => true
  | _ => false

def isRepeatable (k : Key) : Bool := k == exclude

def admits (value : String) : Key → Bool
  | config => !value.isEmpty
  | format => (OutputFormat.ofLabel? value).isSome
  | _ => true

def known : Option CommandName → List Key
  | none => [verbose, config, help, version]
  | some .check => [verbose, config, format, rules, exclude, fix, noGradle, help]
  | some .listRules => [verbose, config, help]
  | some .init => [verbose, config, force, help]
  | some .help => []

end Key

/-- An option as it was given, with the empty text for one without a value. -/
abbrev Given := List (Key × String)

/-- What was read so far: options before the command, the command, its options and operands, and the
option whose value comes next. After two hyphens all words are operands. -/
structure Reading where
  outer : Given
  command : Option CommandName
  given : Given
  operands : List String
  pending : Option Key
  onlyOperands : Bool

namespace Reading

def start : Reading := ⟨[], none, [], [], none, false⟩

/-- Record an option. Most options may be given once on each side of the command. -/
def record (r : Reading) (k : Key) (value : String) : Except Halt Reading :=
  if !k.isRepeatable && (r.given.lookup k).isSome then .error .usage
  else if !k.admits value then .error .usage
  else .ok { r with given := r.given ++ [(k, value)], pending := none }

private def lookLong (r : Reading) (name : List Char) : Except Halt Key :=
  match (Key.known r.command).find? fun k => k.long.toList == name with
  | some k => .ok k
  | none => .error .usage

private def lookShort (r : Reading) (c : Char) : Except Halt Key :=
  match (Key.known r.command).find? fun k => k.short? == some c with
  | some k => .ok k
  | none => .error .usage

private def flag (r : Reading) (isLong : Bool) : Key → Except Halt Reading
  | .help => .error (.help r.command isLong)
  | .version => .error .version
  | k => r.record k ""

private def expectValue (r : Reading) (k : Key) : Except Halt Reading :=
  if !k.isRepeatable && (r.given.lookup k).isSome then .error .usage
  else .ok { r with pending := some k }

/-- An option by its long name, with a value behind an equals sign or in the next word. -/
def long (r : Reading) (word : List Char) : Except Halt Reading :=
  match Text.cut? ['='] word with
  | some (name, value) => do
    let k ← r.lookLong name
    if k.takesValue then r.record k (String.ofList value) else .error .usage
  | none => do
    let k ← r.lookLong word
    if k.takesValue then r.expectValue k else r.flag true k

/-- Options by their short names; the first one that takes a value takes the rest of the word, or
the next word. -/
def cluster (r : Reading) : List Char → Except Halt Reading
  | [] => .ok r
  | c :: rest => do
    let k ← r.lookShort c
    if k.takesValue then
      match rest with
      | [] => r.expectValue k
      | '=' :: value => r.record k (String.ofList value)
      | value => r.record k (String.ofList value)
    else cluster (← r.flag false k) rest

def operand (r : Reading) (word : String) : Except Halt Reading :=
  match r.command with
  | none =>
    match CommandName.ofLabel? word with
    | some name =>
      if r.onlyOperands then .error .usage
      else .ok { r with outer := r.given, given := [], command := some name }
    | none => .error .usage
  | some .check =>
    if r.operands.isEmpty && !word.isEmpty then .ok { r with operands := [word] } else .error .usage
  | some .help => .ok { r with operands := r.operands ++ [word] }
  | some _ => .error .usage

private def looksLikeOption (word : String) : Bool :=
  match word.toList with
  | ['-'] => false
  | '-' :: _ => true
  | _ => false

def step (r : Reading) (word : String) : Except Halt Reading :=
  match r.pending with
  | some k => if looksLikeOption word then .error .usage else r.record k word
  | none =>
    if r.onlyOperands || r.command == some .help then r.operand word
    else
      match word.toList with
      | ['-', '-'] => .ok { r with onlyOperands := true }
      | '-' :: '-' :: name => r.long name
      | ['-'] => r.operand word
      | '-' :: names => r.cluster names
      | _ => r.operand word

private def has (r : Reading) (k : Key) : Bool := (r.given.lookup k).isSome

private def checkRequest (r : Reading) : CheckRequest where
  path := ⟨r.operands.head?.getD "."⟩
  format := ((r.given.lookup .format).bind OutputFormat.ofLabel?).getD .text
  rules := r.given.lookup .rules
  excludes := (r.given.filter (·.1 == .exclude)).map Prod.snd
  fix := r.has .fix
  discoverGradle := !r.has .noGradle

private def helpTopic : List String → Halt
  | [] => .help none true
  | [name] =>
    match CommandName.ofLabel? name with
    | some c => .help (some c) true
    | none => .usage
  | _ => .usage

private def invocation (r : Reading) (c : Command) : Invocation where
  verbose := r.has .verbose || (r.outer.lookup .verbose).isSome
  config := ((r.given.lookup .config).or (r.outer.lookup .config)).map Path.mk
  command := c

def finish (r : Reading) : Except Halt Invocation :=
  if r.pending.isSome then .error .usage
  else
    match r.command with
    | none => .error .usage
    | some .check => .ok (r.invocation (.check r.checkRequest))
    | some .listRules => .ok (r.invocation .listRules)
    | some .init => .ok (r.invocation (.init (r.has .force)))
    | some .help => .error (helpTopic r.operands)

end Reading

def Invocation.ofArguments (args : List String) : Except Halt Invocation := do
  (← args.foldlM Reading.step Reading.start).finish

end CoroutineCheck.Cli

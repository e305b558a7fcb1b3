import CoroutineCheck.Detector
import CoroutineCheck.Rules.Builders
import CoroutineCheck.Rules.Chain
/-!
# Jobs passed to coroutine builders

A job passed to a builder replaces the parent of the new coroutine and cuts it off from its scope.
Three checks run on every builder call, one after the other: builders nested in one that runs with
`NonCancellable`, a `SupervisorJob()` in the context of a lifecycle scope, and arguments whose type
is a job.
-/
namespace CoroutineCheck.JobInBuilderUsage

def jobMessage : String := "Job instance should not be passed into coroutine builder."

def nonCancellableMessage : String :=
  "NonCancellable instance usage inside coroutine builder breaks exception handling for all " ++
    "coroutines in the hierarchy."

def issue : Issue where
  id := "JobInBuilderUsage"
  name := "job-in-builder-usage"
  title := jobMessage
  explanation := "Using Job instance inside coroutine builders has no effect, " ++
    "it can break expected error handling and coroutines cancellation."
  category := ⟨"Job in builder usage", 2⟩
  priority := 7
  severity := .warning

/-- Where the argument list ends in the text between a callee and the body: at its last closing
parenthesis, or before the text if that is blank. Any other text has no argument list. -/
def argumentListEnd? (gap : List Char) : Option Nat :=
  let trimmed := Text.trim gap
  if trimmed.isEmpty then some 0
  else if trimmed.head? == some '(' && trimmed.getLast? == some ')' then
    (Text.cutLast? ')' gap).map fun p => Text.byteLength p.1 + 1
  else none

/-- Turn a builder call into a `withContext` call with the same context and body. -/
def contextSwitch? (f : SourceFile) (call : Nat) : Option Fix :=
  match f.tree.shape call with
  | .call receiver callee _ lambda => do
    let head := f.tree.span (receiver.getD callee)
    let calleeEnd := (f.tree.span callee).stop
    let bodyStart := match lambda with
      | some l => (f.tree.span l).start
      | none => (f.tree.span call).stop
    let gap ← Text.slice? f.content calleeEnd bodyStart
    let length ← argumentListEnd? gap
    let context := match f.contextArgument? call with
      | some v => f.tree.text v
      | none => "coroutineContext".toList
    return Fix.replace "Replace launch/async call by withContext"
      ⟨head.start, calleeEnd + length⟩ (String.ofList ("withContext(".toList ++ context ++ [')']))
  | _ => none

/-- Remove an operand from the `+` chain that makes up a context. -/
def operandRemoval? (f : SourceFile) (context operand : Nat) : Option Fix := do
  let chain ← f.tree.chain? Chain.plus (f.tree.stripParens context)
  let rest ← chain.without? fun n => f.tree.stripParens n == operand
  return Fix.replace "Remove SupervisorJob function call" chain.span (rest.render f.tree)

def nonCancellableFindings (f : SourceFile) (call : Nat) : List Finding :=
  if (f.nodesWithRole call [.identifier, .navigation] .nonCancellable).isEmpty then []
  else
    (f.nestedBuilders call).map fun n =>
      ⟨issue, f.tree.span n, nonCancellableMessage, contextSwitch? f n⟩

def receiverAndContext? (f : SourceFile) (call : Nat) : Option (Nat × Nat) :=
  match f.tree.shape call with
  | .call (some receiver) _ _ _ => (f.contextArgument? call).map (receiver, ·)
  | _ => none

def usesOwnScope (policy : SupertypePolicy) (f : SourceFile) (call receiver : Nat) : Bool :=
  match f.role receiver with
  | .scopeAccessor o =>
    match f.tree.enclosingClass? call with
    | some c => f.isOwner policy o c
    | none => false
  | _ => false

/-- `SupervisorJob()` in the context of a call on a lifecycle scope inside the owner of the scope. -/
def supervisorFindings (policy : SupertypePolicy) (f : SourceFile) (call : Nat) : List Finding :=
  match receiverAndContext? f call with
  | some (receiver, context) =>
    if usesOwnScope policy f call receiver then
      (f.nodesWithRole context [.call] .supervisorConstructor).map fun s =>
        ⟨issue, f.tree.span s, jobMessage, operandRemoval? f context s⟩
    else []
  | none => []

def jobFindings (f : SourceFile) (call : Nat) : List Finding :=
  ((f.argumentValues call).filter fun v =>
    match f.typeOf v with
    | some s => s.isJobType
    | none => false).map fun v => ⟨issue, f.tree.span v, jobMessage, none⟩

def findings (policy : SupertypePolicy) (f : SourceFile) (id : Nat) : List Finding :=
  if f.isBuilderCall id then
    nonCancellableFindings f id ++ supervisorFindings policy f id ++ jobFindings f id
  else []

def detector (policy : SupertypePolicy) : Detector :=
  ⟨issue, [.call], findings policy⟩

end CoroutineCheck.JobInBuilderUsage

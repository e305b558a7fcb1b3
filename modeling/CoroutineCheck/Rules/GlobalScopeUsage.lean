import CoroutineCheck.Detector
import CoroutineCheck.Rules.Role
/-!
# References to the global scope

Coroutines started in `GlobalScope` outlive the screen that started them. Every reference is
reported. Inside a class with a lifecycle, and with the library that offers the class's own scope,
the fix replaces the reference by that scope.
-/
namespace CoroutineCheck.GlobalScopeUsage

def issue : Issue where
  id := "GlobalScopeUsage"
  name := "global-scope-usage"
  title := "GlobalScope should not use"
  explanation := "GlobalScope usage can lead to excessive resource usage and memory leaks. " ++
    "That is no recommended to use."
  category := ⟨"Coroutine scope usage", 2⟩
  priority := 1
  severity := .warning

/-- Whether a node refers to the global scope. A name that resolves to something else does not; one
that resolves to nothing does. -/
def isReference (f : SourceFile) (id : Nat) : Bool :=
  f.tree.identifier? id == some "GlobalScope" &&
    match f.resolve id with
    | some s => s.role == .globalScope
    | none => true

/-- The first owner whose scope can stand in for the global one at a node. -/
def replacement? (policy : SupertypePolicy) (f : SourceFile) (id : Nat) : Option LifecycleOwner := do
  let c ← f.tree.enclosingClass? id
  LifecycleOwner.all.find? fun o => f.isOwner policy o c && f.dependsOn o.artifact

def fix (span : Span) (o : LifecycleOwner) : Fix :=
  Fix.replace s!"Replace GlobalScope by {o.accessor}" span o.accessor

def findings (policy : SupertypePolicy) (f : SourceFile) (id : Nat) : List Finding :=
  if isReference f id then
    [⟨issue, f.tree.span id, issue.title, (replacement? policy f id).map (fix (f.tree.span id))⟩]
  else []

def detector (policy : SupertypePolicy) : Detector :=
  ⟨issue, [.identifier], findings policy⟩

end CoroutineCheck.GlobalScopeUsage

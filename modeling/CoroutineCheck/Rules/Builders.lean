import CoroutineCheck.Rules.Role
/-!
# Coroutine builder calls

Questions about a call of `launch` or `async`. Searches below a call do not enter the builder calls
inside it; those are left to their own visit.
-/
namespace CoroutineCheck.SourceFile

def isBuilderCall (f : SourceFile) (id : Nat) : Bool :=
  f.tree.kind id == .call &&
    match f.role id with
    | .builder _ => true
    | _ => false

def nodesWithRole (f : SourceFile) (start : Nat) (kinds : List Kind) (role : Role) : List Nat :=
  (f.tree.walkPruned f.isBuilderCall start).filter fun n =>
    kinds.contains (f.tree.kind n) && f.role n == role

/-- The builder calls in the trailing lambda of a call that lie in no other builder call there. -/
def nestedBuilders (f : SourceFile) (call : Nat) : List Nat :=
  match f.tree.shape call with
  | .call _ _ _ (some body) =>
    (f.tree.walkPruned f.isBuilderCall body).filter fun n => n != body && f.isBuilderCall n
  | _ => []

def isContextArgument (f : SourceFile) (arg : Nat) : Bool :=
  match f.tree.shape arg with
  | .argument (some label) _ => label == "context"
  | _ => false

def isPositional (f : SourceFile) (arg : Nat) : Bool :=
  match f.tree.shape arg with
  | .argument none _ => true
  | _ => false

/-- The context passed to a call: the argument labelled `context`, else the first one if it has no
label. -/
def contextArgument? (f : SourceFile) (call : Nat) : Option Nat :=
  match f.tree.shape call with
  | .call _ _ args _ =>
    ((args.find? f.isContextArgument).or (args.head?.filter f.isPositional)).map
      f.tree.argumentValue
  | _ => none

def argumentValues (f : SourceFile) (call : Nat) : List Nat :=
  match f.tree.shape call with
  | .call _ _ args _ => args.map f.tree.argumentValue
  | _ => []

end CoroutineCheck.SourceFile

import CoroutineCheck.SourceFile
/-!
# Roles of library declarations

The rules know a handful of library declarations. A role says which of them a symbol is; all
qualified names stand here.
-/
namespace CoroutineCheck

/-- Classes with a lifecycle, which have a coroutine scope of their own. -/
inductive LifecycleOwner where
  | viewModel
  | fragment
deriving DecidableEq, Repr

namespace LifecycleOwner

def all : List LifecycleOwner := [viewModel, fragment]

def className : LifecycleOwner → String
  | viewModel => "androidx.lifecycle.ViewModel"
  | fragment => "androidx.fragment.app.Fragment"

def accessorName : LifecycleOwner → String
  | viewModel => "androidx.lifecycle.viewModelScope"
  | fragment => "androidx.lifecycle.lifecycleScope"

def accessor (o : LifecycleOwner) : String := simpleNameOf o.accessorName

def artifact : LifecycleOwner → String
  | viewModel => "androidx.lifecycle:lifecycle-viewmodel-ktx"
  | fragment => "androidx.lifecycle:lifecycle-runtime-ktx"

end LifecycleOwner

inductive CoroutineBuilder where
  | launch
  | async
deriving DecidableEq, Repr

inductive Role where
  | globalScope
  | jobConstructor
  | supervisorConstructor
  | nonCancellable
  | builder (b : CoroutineBuilder)
  | ownerClass (o : LifecycleOwner)
  | scopeAccessor (o : LifecycleOwner)
  | unrelated
deriving DecidableEq, Repr

def jobType : String := "kotlinx.coroutines.Job"

namespace Symbol

def isFunction (s : Symbol) : Bool := s.kind == .function

def role (s : Symbol) : Role :=
  let q := s.qualifiedName
  if q == "kotlinx.coroutines.GlobalScope" && !s.isFunction then .globalScope
  else if q == jobType && s.isFunction then .jobConstructor
  else if q == "kotlinx.coroutines.SupervisorJob" && s.isFunction then .supervisorConstructor
  else if q == "kotlinx.coroutines.NonCancellable" && !s.isFunction then .nonCancellable
  else if q == "kotlinx.coroutines.launch" && s.isFunction then .builder .launch
  else if q == "kotlinx.coroutines.async" && s.isFunction then .builder .async
  else if q == LifecycleOwner.viewModel.className && s.isType then .ownerClass .viewModel
  else if q == LifecycleOwner.fragment.className && s.isType then .ownerClass .fragment
  else if q == LifecycleOwner.viewModel.accessorName && !s.isType then .scopeAccessor .viewModel
  else if q == LifecycleOwner.fragment.accessorName && !s.isType then .scopeAccessor .fragment
  else .unrelated

def isJobType (s : Symbol) : Bool := s.isType && isSubtypeOf jobType s

def makesOwner (policy : SupertypePolicy) (o : LifecycleOwner) (s : Symbol) : Bool :=
  match policy with
  | .direct => s.role == .ownerClass o
  | .transitive => isSubtypeOf o.className s

end Symbol

namespace SourceFile

def role (f : SourceFile) (id : Nat) : Role :=
  match f.resolve id with
  | some s => s.role
  | none => .unrelated

def isOwner (f : SourceFile) (policy : SupertypePolicy) (o : LifecycleOwner) (classId : Nat) : Bool :=
  (f.supertypes classId).any (·.makesOwner policy o)

end SourceFile
end CoroutineCheck

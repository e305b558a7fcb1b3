import CoroutineCheck.Symbol
/-!
# Library declarations

The declarations of the coroutine and lifecycle libraries that names can resolve to without a class
path. A function or property carries the type of its values. `NonCancellable` is listed as a
context element, not as a job.
-/
namespace CoroutineCheck.Kotlin.Library

structure Entry where
  symbol : Symbol
  valueType : Option Symbol

private def iface (name : String) (above : List Symbol) : Symbol := .named name .interfaceType above

private def cls (name : String) (above : List Symbol) : Symbol := .named name .classType above

private def obj (name : String) (above : List Symbol) : Symbol := .named name .objectType above

def context : Symbol := iface "kotlin.coroutines.CoroutineContext" []

def element : Symbol := iface "kotlin.coroutines.CoroutineContext.Element" [context]

def abstractElement : Symbol := cls "kotlin.coroutines.AbstractCoroutineContextElement" [element]

def scope : Symbol := iface "kotlinx.coroutines.CoroutineScope" []

def job : Symbol := iface "kotlinx.coroutines.Job" [element]

def completableJob : Symbol := iface "kotlinx.coroutines.CompletableJob" [job]

def deferred : Symbol := iface "kotlinx.coroutines.Deferred" [job]

def dispatcher : Symbol := cls "kotlinx.coroutines.CoroutineDispatcher" [element]

def exceptionHandler : Symbol := iface "kotlinx.coroutines.CoroutineExceptionHandler" [element]

def lifecycleOwner : Symbol := iface "androidx.lifecycle.LifecycleOwner" []

def lifecycleScope : Symbol := cls "androidx.lifecycle.LifecycleCoroutineScope" [scope]

private def type (s : Symbol) : Entry := ⟨s, none⟩

private def function (name : String) (value : Option Symbol) : Entry :=
  ⟨.named name .function [], value⟩

private def property (name : String) (value : Symbol) : Entry :=
  ⟨.named name .property [], some value⟩

def entries : List Entry :=
  [type context,
   type element,
   type abstractElement,
   type scope,
   type (obj "kotlinx.coroutines.GlobalScope" [scope]),
   type job,
   type completableJob,
   type deferred,
   function "kotlinx.coroutines.Job" completableJob,
   function "kotlinx.coroutines.SupervisorJob" completableJob,
   type (obj "kotlinx.coroutines.NonCancellable" [abstractElement]),
   function "kotlinx.coroutines.launch" job,
   function "kotlinx.coroutines.async" deferred,
   function "kotlinx.coroutines.withContext" none,
   function "kotlinx.coroutines.delay" none,
   function "kotlinx.coroutines.coroutineScope" none,
   function "kotlinx.coroutines.supervisorScope" none,
   function "kotlinx.coroutines.runBlocking" none,
   type dispatcher,
   type (obj "kotlinx.coroutines.Dispatchers" []),
   property "kotlinx.coroutines.Dispatchers.IO" dispatcher,
   property "kotlinx.coroutines.Dispatchers.Main" dispatcher,
   property "kotlinx.coroutines.Dispatchers.Default" dispatcher,
   property "kotlinx.coroutines.Dispatchers.Unconfined" dispatcher,
   type exceptionHandler,
   function "kotlinx.coroutines.CoroutineExceptionHandler" exceptionHandler,
   type (cls "kotlinx.coroutines.CoroutineName" [element]),
   type lifecycleOwner,
   type (cls "androidx.lifecycle.ViewModel" []),
   property "androidx.lifecycle.viewModelScope" scope,
   type lifecycleScope,
   property "androidx.lifecycle.lifecycleScope" lifecycleScope,
   type (cls "androidx.fragment.app.Fragment" [lifecycleOwner]),
   type (cls "androidx.appcompat.app.AppCompatActivity" [lifecycleOwner])]

def named (name : String) : List Entry :=
  entries.filter (·.symbol.qualifiedName == name)

def typeNamed? (name : String) : Option Entry :=
  (named name).find? (·.symbol.isType)

/-- The type of a declaration's value: an object is its own. -/
def Entry.valueSymbol? (e : Entry) : Option Symbol :=
  if e.symbol.kind == .objectType then some e.symbol else e.valueType

end CoroutineCheck.Kotlin.Library

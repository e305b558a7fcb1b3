import CoroutineCheck.Analysis.Frontend
import CoroutineCheck.Kotlin.Expressions
import CoroutineCheck.Kotlin.Layout
/-!
# The Kotlin frontend

The rows of a source text come from a parser outside of this library.
-/
namespace CoroutineCheck.Kotlin

def parsed (source : String) (row : Row) : Parsed :=
  let l := layout source row
  ⟨l.tree, l.declarations.resolver⟩

def frontend (parser : String → Option Row) : Frontend where
  extensions := [".kt", ".kts"]
  parse source :=
    match parser source with
    | some row => .ok (parsed source row)
    | none => .error .noTree

end CoroutineCheck.Kotlin

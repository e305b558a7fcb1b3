import CoroutineCheck.SourceFile
/-!
# Frontends

A frontend turns the source text of one language into a tree and a resolver. It says which file
extensions it reads.
-/
namespace CoroutineCheck

inductive ParseFailure where
  | grammar (language detail : String)
  | noTree
deriving DecidableEq, Repr

def ParseFailure.message : ParseFailure → String
  | grammar language detail => s!"failed to load {language} grammar: {detail}"
  | noTree => "parser produced no tree"

structure Parsed where
  tree : Tree
  resolver : Resolver

structure Frontend where
  extensions : List String
  parse : String → Except ParseFailure Parsed

def Frontend.reads (f : Frontend) (p : Path) : Bool :=
  f.extensions.contains ((p.extension?.map ("." ++ ·)).getD "")

end CoroutineCheck

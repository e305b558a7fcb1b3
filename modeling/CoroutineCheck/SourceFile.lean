import CoroutineCheck.Path
import CoroutineCheck.Report.Basic
import CoroutineCheck.Symbol
import CoroutineCheck.Text.Lines
import CoroutineCheck.Tree.Walk
/-!
# Source files

What a rule sees of one file: its tree, the answers to questions about names and types, and the
project's dependencies. No answer means that nothing is known.
-/
namespace CoroutineCheck

/-- Answers about the nodes of a tree: the declaration a node refers to, and the type of an
expression. -/
structure Resolver where
  resolve : Tree → Nat → Option Symbol
  typeOf : Tree → Nat → Option Symbol

def Resolver.unknown : Resolver := ⟨fun _ _ => none, fun _ _ => none⟩

structure SourceFile where
  path : Path
  tree : Tree
  resolver : Resolver
  dependencies : List Dependency

namespace SourceFile

def seenFrom (root path : Path) (tree : Tree) (resolver : Resolver) (dependencies : List Dependency) :
    SourceFile :=
  ⟨Path.relativeTo root path, tree, resolver, dependencies⟩

def content (f : SourceFile) : List Char := f.tree.source.toList

def resolve (f : SourceFile) (id : Nat) : Option Symbol := f.resolver.resolve f.tree id

def typeOf (f : SourceFile) (id : Nat) : Option Symbol := f.resolver.typeOf f.tree id

def supertypes (f : SourceFile) (classId : Nat) : List Symbol :=
  ((f.resolve classId).map Symbol.supertypes).getD []

def dependsOn (f : SourceFile) (artifact : String) : Bool :=
  f.dependencies.any (·.mentions artifact)

def location (f : SourceFile) (span : Span) : Location :=
  let p := Text.position f.content span.start
  ⟨f.path, p.line, p.column, span.start, span.length⟩

end SourceFile
end CoroutineCheck

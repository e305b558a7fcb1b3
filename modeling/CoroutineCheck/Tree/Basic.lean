import CoroutineCheck.Span
import CoroutineCheck.Text.Bytes
/-!
# Syntax trees

A tree is an arena of nodes with a root. A node is known by its position in the arena, and it stands
after all of its children; so walks down the tree go to smaller positions and walks up go to larger
ones, and both end.
-/
namespace CoroutineCheck

/-- What a node is, with the positions of the nodes that play a part in it. -/
inductive Shape where
  | identifier (name : String)
  | navigation (receiver selector : Nat)
  | call (receiver : Option Nat) (callee : Nat) (args : List Nat) (lambda : Option Nat)
  | lambda
  | binary (op : String) (lhs rhs : Nat)
  | parenthesized (inner : Nat)
  | classDecl (name : String)
  | argument (label : Option String) (value : Nat)
  | other (kind : String)
deriving DecidableEq, Repr, Inhabited

inductive Kind where
  | identifier
  | navigation
  | call
  | lambda
  | binary
  | parenthesized
  | classDecl
  | argument
  | other
deriving DecidableEq, Repr

namespace Shape

def kind : Shape → Kind
  | identifier _ => .identifier
  | navigation _ _ => .navigation
  | call _ _ _ _ => .call
  | lambda => .lambda
  | binary _ _ _ => .binary
  | parenthesized _ => .parenthesized
  | classDecl _ => .classDecl
  | argument _ _ => .argument
  | other _ => .other

/-- The nodes that a shape names, in the order of the source. -/
def parts : Shape → List Nat
  | navigation r s => [r, s]
  | call r c args l => r.toList ++ c :: (args ++ l.toList)
  | binary _ l r => [l, r]
  | parenthesized i => [i]
  | argument _ v => [v]
  | _ => []

end Shape

structure Node where
  shape : Shape
  span : Span
  parent : Option Nat
  children : List Nat
deriving DecidableEq, Repr, Inhabited

/-- Children come before their parent, parents after their children and below `limit`, and the
parts of a shape are among the children. -/
def Linked (nodes : Array Node) (limit : Nat) : Prop :=
  ∀ i (h : i < nodes.size),
    (∀ c ∈ nodes[i].children, c < i) ∧
    (∀ c ∈ nodes[i].shape.parts, c ∈ nodes[i].children) ∧
    (∀ p, nodes[i].parent = some p → i < p ∧ p < limit)

structure Arena where
  nodes : Array Node
  linked : Linked nodes nodes.size

structure Tree where
  source : String
  arena : Arena
  root : Nat

namespace Arena

def size (a : Arena) : Nat := a.nodes.size

/-- The node at a position; positions outside the arena hold an empty node. -/
def node (a : Arena) (id : Nat) : Node :=
  if h : id < a.nodes.size then a.nodes[id] else ⟨.other "", ⟨0, 0⟩, none, []⟩

theorem children_lt {a : Arena} {id c : Nat} (h : c ∈ (a.node id).children) : c < id := by
  unfold node at h
  split at h
  · exact (a.linked _ _).1 c h
  · simp at h

theorem parts_subset {a : Arena} {id c : Nat} (h : c ∈ (a.node id).shape.parts) :
    c ∈ (a.node id).children := by
  by_cases hi : id < a.nodes.size
  · simp only [node, hi, dite_true] at h ⊢
    exact (a.linked _ _).2.1 c h
  · simp [node, hi, Shape.parts] at h

theorem parts_lt {a : Arena} {id c : Nat} (h : c ∈ (a.node id).shape.parts) : c < id :=
  children_lt (parts_subset h)

theorem lt_parent {a : Arena} {id p : Nat} (h : (a.node id).parent = some p) :
    id < p ∧ p < a.size := by
  unfold node at h
  split at h
  · exact (a.linked _ _).2.2 p h
  · simp at h

end Arena

namespace Tree

def size (t : Tree) : Nat := t.arena.size

/-- A tree with nothing but its root counts as empty. -/
def isEmpty (t : Tree) : Bool := t.size ≤ 1

def node (t : Tree) (id : Nat) : Node := t.arena.node id

def shape (t : Tree) (id : Nat) : Shape := (t.node id).shape

def kind (t : Tree) (id : Nat) : Kind := (t.shape id).kind

def span (t : Tree) (id : Nat) : Span := (t.node id).span

def parent? (t : Tree) (id : Nat) : Option Nat := (t.node id).parent

def children (t : Tree) (id : Nat) : List Nat := (t.node id).children

theorem children_lt {t : Tree} {id c : Nat} (h : c ∈ t.children id) : c < id :=
  Arena.children_lt h

theorem parts_lt {t : Tree} {id c : Nat} (h : c ∈ (t.shape id).parts) : c < id :=
  Arena.parts_lt h

theorem lt_parent {t : Tree} {id p : Nat} (h : t.parent? id = some p) : id < p ∧ p < t.size :=
  Arena.lt_parent h

/-- The source under a node, empty where its span is no piece of the source. -/
def text (t : Tree) (id : Nat) : List Char :=
  (Text.slice? t.source.toList (t.span id).start (t.span id).stop).getD []

def ancestors (t : Tree) (id : Nat) : List Nat :=
  match _ : t.parent? id with
  | none => []
  | some p => p :: t.ancestors p
termination_by t.size - id
decreasing_by have := lt_parent ‹_›; omega

def enclosingClass? (t : Tree) (id : Nat) : Option Nat :=
  (t.ancestors id).find? (t.kind · == .classDecl)

def identifier? (t : Tree) (id : Nat) : Option String :=
  match t.shape id with
  | .identifier name => some name
  | _ => none

/-- The value of an argument; any other node stands for itself. -/
def argumentValue (t : Tree) (id : Nat) : Nat :=
  match t.shape id with
  | .argument _ value => value
  | _ => id

def stripParens (t : Tree) (id : Nat) : Nat :=
  match _ : t.shape id with
  | .parenthesized inner => t.stripParens inner
  | _ => id
termination_by id
decreasing_by exact parts_lt (t := t) (by simp [*, Shape.parts])

end Tree
end CoroutineCheck

import CoroutineCheck.Text.Blank
import CoroutineCheck.Tree.Basic
/-!
# Chains of a combinator

`a + b + c` is a tree of binary nodes. Its chain is the list of operands in source order, however
the operations are nested; operands can be removed and the rest written again.
-/
namespace CoroutineCheck

structure Chain where
  op : String
  span : Span
  operands : List Nat
deriving DecidableEq, Repr

namespace Tree

/-- The operands below a node: those of both sides of an operation with `op`, else the node itself. -/
def operands (t : Tree) (op : String) (id : Nat) : List Nat :=
  match _ : t.shape id with
  | .binary found lhs rhs =>
    if found == op then t.operands op lhs ++ t.operands op rhs else [id]
  | _ => [id]
termination_by id
decreasing_by
  · exact parts_lt (t := t) (by simp [*, Shape.parts])
  · exact parts_lt (t := t) (by simp [*, Shape.parts])

def chain? (t : Tree) (op : String) (id : Nat) : Option Chain :=
  match t.shape id with
  | .binary found _ _ =>
    if found == op then some ⟨op, t.span id, t.operands op id⟩ else none
  | _ => none

end Tree

namespace Chain

def plus : String := "+"

/-- The chain without some operands, if there were any to remove and any are left. -/
def without? (c : Chain) (remove : Nat → Bool) : Option Chain :=
  let rest := c.operands.filter (!remove ·)
  if rest.isEmpty || rest.length == c.operands.length then none else some { c with operands := rest }

/-- The operands as they are written, one space on either side of the operator. -/
def render (c : Chain) (t : Tree) : String :=
  String.ofList
    ((' ' :: c.op.toList ++ [' ']).intercalate (c.operands.map fun id => Text.trim (t.text id)))

end Chain
end CoroutineCheck

import CoroutineCheck.Tree.Basic
/-!
# Walks

A walk visits a node, then everything below its children in order. It runs on a stack of nodes
still to visit. Nodes for which `prune` holds are visited but not entered, except the first.
-/
namespace CoroutineCheck.Tree

private def total : List Nat → Nat
  | [] => 0
  | w :: ws => w + total ws

private theorem total_append (vs ws : List Nat) : total (vs ++ ws) = total vs + total ws := by
  induction vs with
  | nil => simp [total]
  | cons v vs ih =>
    rw [List.cons_append, total, total, ih]
    omega

/-- The number of visits of a full walk, which bounds every walk. -/
def weight (t : Tree) (id : Nat) : Nat :=
  1 + total ((t.children id).attach.map fun ⟨c, _⟩ => t.weight c)
termination_by id
decreasing_by exact children_lt ‹_›

private theorem weight_eq (t : Tree) (id : Nat) :
    t.weight id = 1 + total ((t.children id).map t.weight) := by
  rw [weight]
  simp

/-- Visit the nodes of a stack and everything below those that are entered. -/
def visit (t : Tree) (enter : Nat → Bool) : (stack : List Nat) → List Nat
  | [] => []
  | id :: rest =>
    id :: if enter id then t.visit enter (t.children id ++ rest) else t.visit enter rest
termination_by stack => total (stack.map t.weight)
decreasing_by
  · have h := weight_eq t id
    simp only [List.map_append, total_append, List.map_cons, total]
    omega
  · have h := weight_eq t id
    simp only [List.map_cons, total]
    omega

def walkPruned (t : Tree) (prune : Nat → Bool) (start : Nat) : List Nat :=
  t.visit (fun id => id == start || !prune id) [start]

def walk (t : Tree) (start : Nat) : List Nat :=
  t.walkPruned (fun _ => false) start

end CoroutineCheck.Tree

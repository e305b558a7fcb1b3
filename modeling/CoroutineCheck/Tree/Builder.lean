import CoroutineCheck.Tree.Basic
/-!
# Building trees

Nodes are added bottom up. Adding a node gives it its children in source order and makes it their
parent; a node that no other has taken is in the end a child of the root.
-/
namespace CoroutineCheck

namespace Arena

private def setParent (p : Nat) (nodes : Array Node) (c : Nat) : Array Node :=
  nodes.modify c fun n => { n with parent := some p }

private theorem setParent_size (p c : Nat) (nodes : Array Node) :
    (setParent p nodes c).size = nodes.size := by
  simp [setParent]

private theorem setParent_linked {nodes : Array Node} {p c limit : Nat} (hp : nodes.size ≤ p)
    (hl : p < limit) (h : Linked nodes limit) : Linked (setParent p nodes c) limit := by
  intro i hi
  rw [setParent_size] at hi
  have hn := h i hi
  by_cases hc : c = i
  · subst hc
    simp only [setParent, Array.getElem_modify_self]
    exact ⟨hn.1, hn.2.1, by intro q hq; cases hq; omega⟩
  · simp only [setParent, Array.getElem_modify_of_ne hc]
    exact hn

private theorem setParents_size (p : Nat) (cs : List Nat) (nodes : Array Node) :
    (cs.foldl (setParent p) nodes).size = nodes.size := by
  induction cs generalizing nodes with
  | nil => rfl
  | cons c cs ih => rw [List.foldl_cons, ih, setParent_size]

private theorem setParents_linked {nodes : Array Node} {p limit : Nat} (cs : List Nat)
    (hp : nodes.size ≤ p) (hl : p < limit) (h : Linked nodes limit) :
    Linked (cs.foldl (setParent p) nodes) limit := by
  induction cs generalizing nodes with
  | nil => exact h
  | cons c cs ih => exact ih (by rw [setParent_size]; exact hp) (setParent_linked hp hl h)

private theorem push_linked {nodes : Array Node} {n : Node} (h : Linked nodes (nodes.size + 1))
    (hn : n.parent = none) (hc : ∀ c ∈ n.children, c < nodes.size)
    (hp : ∀ c ∈ n.shape.parts, c ∈ n.children) : Linked (nodes.push n) (nodes.push n).size := by
  intro i hi
  rw [Array.size_push] at hi ⊢
  by_cases he : i < nodes.size
  · rw [Array.getElem_push_lt he]
    exact h i he
  · have hi' : i = nodes.size := by omega
    subst hi'
    rw [Array.getElem_push_eq]
    exact ⟨hc, hp, by simp [hn]⟩

private theorem linked_mono {nodes : Array Node} {m n : Nat} (h : Linked nodes m) (hmn : m ≤ n) :
    Linked nodes n := fun i hi =>
  ⟨(h i hi).1, (h i hi).2.1, fun p hp => ⟨((h i hi).2.2 p hp).1, by have := ((h i hi).2.2 p hp).2; omega⟩⟩

def empty : Arena where
  nodes := #[]
  linked := fun _ h => absurd h (by simp)

/-- Further children follow the parts of the shape; none is listed twice on their account. -/
def mergeChildren (parts extra : List Nat) : List Nat :=
  extra.foldl (fun all c => if all.contains c then all else all ++ [c]) parts

private theorem subset_mergeChildren (parts extra : List Nat) {c : Nat} (h : c ∈ parts) :
    c ∈ mergeChildren parts extra := by
  unfold mergeChildren
  induction extra generalizing parts with
  | nil => exact h
  | cons e extra ih =>
    rw [List.foldl_cons]
    apply ih
    split
    · exact h
    · exact List.mem_append_left _ h

theorem mem_mergeChildren {parts extra : List Nat} {c : Nat} :
    c ∈ mergeChildren parts extra ↔ c ∈ parts ∨ c ∈ extra := by
  unfold mergeChildren
  induction extra generalizing parts with
  | nil => simp
  | cons e extra ih =>
    rw [List.foldl_cons, ih, List.mem_cons]
    split
    case isTrue h =>
      constructor
      · rintro (hc | hc)
        · exact .inl hc
        · exact .inr (.inr hc)
      · rintro (hc | rfl | hc)
        · exact .inl hc
        · exact .inl (List.contains_iff_mem.mp h)
        · exact .inr hc
    case isFalse => rw [List.mem_append, List.mem_singleton, or_assoc]

theorem nodup_mergeChildren {parts : List Nat} (h : parts.Nodup) (extra : List Nat) :
    (mergeChildren parts extra).Nodup := by
  unfold mergeChildren
  induction extra generalizing parts with
  | nil => exact h
  | cons e extra ih =>
    rw [List.foldl_cons]
    apply ih
    split
    case isTrue => exact h
    case isFalse he =>
      rw [List.contains_iff_mem] at he
      refine List.nodup_append.mpr ⟨h, by simp, ?_⟩
      intro c hc d hd
      rw [List.mem_singleton] at hd
      exact fun hcd => he (hd ▸ hcd ▸ hc)

/-- Source order of nodes: by the start of their spans, then by age. -/
def sourceOrder (a : Arena) (c d : Nat) : Bool :=
  let s := (a.node c).span.start
  let r := (a.node d).span.start
  s < r || (s == r && c ≤ d)

theorem sourceOrder_iff {a : Arena} {c d : Nat} : a.sourceOrder c d = true ↔
    (a.node c).span.start < (a.node d).span.start ∨
      (a.node c).span.start = (a.node d).span.start ∧ c ≤ d := by
  simp only [sourceOrder, Bool.or_eq_true, Bool.and_eq_true, decide_eq_true_eq, beq_iff_eq]

def insertInOrder (a : Arena) (c : Nat) : List Nat → List Nat
  | [] => [c]
  | d :: rest => if a.sourceOrder c d then c :: d :: rest else d :: a.insertInOrder c rest

private theorem insertInOrder_perm (a : Arena) (c : Nat) (cs : List Nat) :
    (a.insertInOrder c cs).Perm (c :: cs) := by
  induction cs with
  | nil => exact .refl _
  | cons d cs ih =>
    rw [insertInOrder]
    split
    · exact .refl _
    · exact (ih.cons d).trans (.swap c d cs)

def inOrder (a : Arena) (cs : List Nat) : List Nat := cs.foldr a.insertInOrder []

theorem inOrder_perm (a : Arena) (cs : List Nat) : (a.inOrder cs).Perm cs := by
  induction cs with
  | nil => exact .refl _
  | cons c cs ih => exact (a.insertInOrder_perm c _).trans (ih.cons c)

private theorem pairwise_insertInOrder (a : Arena) (c : Nat) {cs : List Nat}
    (h : cs.Pairwise fun x y => a.sourceOrder x y = true) :
    (a.insertInOrder c cs).Pairwise fun x y => a.sourceOrder x y = true := by
  induction cs with
  | nil => exact List.pairwise_singleton _ c
  | cons d cs ih =>
    obtain ⟨hd, hcs⟩ := List.pairwise_cons.mp h
    rw [insertInOrder]
    split
    case isTrue hcd =>
      refine List.pairwise_cons.mpr ⟨?_, h⟩
      intro x hx
      rcases List.mem_cons.mp hx with rfl | hx
      · exact hcd
      · have hdx := hd x hx
        rw [sourceOrder_iff] at hcd hdx ⊢
        omega
    case isFalse hlater =>
      refine List.pairwise_cons.mpr ⟨?_, ih hcs⟩
      intro x hx
      rcases List.mem_cons.mp ((a.insertInOrder_perm c cs).mem_iff.mp hx) with rfl | hx
      · rw [sourceOrder_iff] at hlater ⊢
        omega
      · exact hd x hx

theorem pairwise_sourceOrder_inOrder (a : Arena) (cs : List Nat) :
    (a.inOrder cs).Pairwise fun x y => a.sourceOrder x y = true := by
  induction cs with
  | nil => exact .nil
  | cons c cs ih => exact a.pairwise_insertInOrder c ih

theorem pairwise_inOrder (a : Arena) (cs : List Nat) :
    (a.inOrder cs).Pairwise fun x y => (a.node x).span.start ≤ (a.node y).span.start := by
  refine (a.pairwise_sourceOrder_inOrder cs).imp fun hxy => ?_
  rw [sourceOrder_iff] at hxy
  omega

def childrenOf (a : Arena) (shape : Shape) (extra : List Nat) : List Nat :=
  a.inOrder (mergeChildren shape.parts extra)

@[simp] theorem mem_childrenOf {a : Arena} {shape : Shape} {extra : List Nat} {c : Nat} :
    c ∈ a.childrenOf shape extra ↔ c ∈ shape.parts ∨ c ∈ extra := by
  rw [childrenOf, (a.inOrder_perm _).mem_iff, mem_mergeChildren]

theorem nodup_childrenOf (a : Arena) {shape : Shape} (h : shape.parts.Nodup) (extra : List Nat) :
    (a.childrenOf shape extra).Nodup :=
  (a.inOrder_perm _).nodup_iff.mpr (nodup_mergeChildren h extra)

/-- Add a node whose children are in the arena already, and become their parent. A node that names
a position outside the arena is kept as a leaf without content. -/
def add (a : Arena) (shape : Shape) (span : Span) (extra : List Nat) : Arena :=
  let all := a.childrenOf shape extra
  if h : ∀ c ∈ all, c < a.nodes.size then
    { nodes := (all.foldl (setParent a.nodes.size) a.nodes).push ⟨shape, span, none, all⟩
      linked := by
        have hs := setParents_size a.nodes.size all a.nodes
        apply push_linked
        · rw [hs]
          exact setParents_linked all (Nat.le_refl _) (by omega)
            (linked_mono a.linked (by omega))
        · rfl
        · rw [hs]; exact h
        · intro c hc
          exact (a.inOrder_perm _).mem_iff.mpr (subset_mergeChildren _ _ hc) }
  else
    { nodes := a.nodes.push ⟨.other "", span, none, []⟩
      linked := push_linked (linked_mono a.linked (by omega)) rfl (by simp) (by simp [Shape.parts]) }

private theorem setParent_get {nodes : Array Node} {p c i : Nat} (hi : i < nodes.size) :
    (setParent p nodes c)[i]? = some (if c = i then { nodes[i] with parent := some p } else nodes[i]) := by
  rw [setParent, Array.getElem?_modify, Array.getElem?_eq_getElem hi]
  by_cases hc : c = i <;> simp [hc]

private theorem setParents_get {p : Nat} (cs : List Nat) {nodes : Array Node} {i : Nat}
    (hi : i < nodes.size) :
    (cs.foldl (setParent p) nodes)[i]? =
      some (if i ∈ cs then { nodes[i] with parent := some p } else nodes[i]) := by
  induction cs generalizing nodes with
  | nil => simp [hi]
  | cons c cs ih =>
    have hs : i < (setParent p nodes c).size := by rw [setParent_size]; exact hi
    have hg := setParent_get (p := p) (c := c) hi
    rw [Array.getElem?_eq_getElem hs, Option.some.injEq] at hg
    rw [List.foldl_cons, ih hs, hg]
    by_cases hc : c = i
    · by_cases hm : i ∈ cs <;> simp [hc, hm]
    · have hc' : i ≠ c := fun h => hc h.symm
      by_cases hm : i ∈ cs <;> simp [hc, hc', hm]

theorem node_eq_getD (a : Arena) (i : Nat) :
    a.node i = a.nodes[i]?.getD ⟨.other "", ⟨0, 0⟩, none, []⟩ := by
  unfold node
  split
  case isTrue h => rw [Array.getElem?_eq_getElem h, Option.getD_some]
  case isFalse h => rw [Array.getElem?_eq_none (by omega), Option.getD_none]

private theorem nodes_add {a : Arena} {shape : Shape} {span : Span} {extra : List Nat}
    (h : ∀ c ∈ a.childrenOf shape extra, c < a.nodes.size) :
    (a.add shape span extra).nodes =
      ((a.childrenOf shape extra).foldl (setParent a.nodes.size) a.nodes).push
        ⟨shape, span, none, a.childrenOf shape extra⟩ := by
  unfold add
  simp only [dif_pos h]

@[simp] theorem size_add (a : Arena) (shape : Shape) (span : Span) (extra : List Nat) :
    (a.add shape span extra).size = a.size + 1 := by
  by_cases h : ∀ c ∈ a.childrenOf shape extra, c < a.nodes.size
  · simp only [size, nodes_add h, Array.size_push, setParents_size]
  · simp only [size, add, dif_neg h, Array.size_push]

/-- Adding a node changes an older one only by becoming the parent of its children. -/
theorem node_add_lt {a : Arena} {shape : Shape} {span : Span} {extra : List Nat}
    (h : ∀ c ∈ a.childrenOf shape extra, c < a.size) {i : Nat} (hi : i < a.size) :
    (a.add shape span extra).node i =
      if i ∈ a.childrenOf shape extra then { a.node i with parent := some a.size } else a.node i := by
  have hi' : i < a.nodes.size := hi
  have hn : a.node i = a.nodes[i] := by rw [node, dif_pos hi']
  have hlt : i < ((a.childrenOf shape extra).foldl (setParent a.nodes.size) a.nodes).size := by
    rw [setParents_size]
    exact hi
  rw [node_eq_getD, nodes_add h, Array.getElem?_push, if_neg (by omega), setParents_get _ hi', hn]
  rfl

theorem node_add_self {a : Arena} {shape : Shape} {span : Span} {extra : List Nat}
    (h : ∀ c ∈ a.childrenOf shape extra, c < a.size) :
    (a.add shape span extra).node a.size = ⟨shape, span, none, a.childrenOf shape extra⟩ := by
  have hs := setParents_size a.nodes.size (a.childrenOf shape extra) a.nodes
  rw [node_eq_getD, nodes_add h, Array.getElem?_push, if_pos (by rw [hs]; rfl)]
  rfl

def next (a : Arena) : Nat := a.nodes.size

/-- Nodes without a parent, in the order they were added. -/
def orphans (a : Arena) : List Nat :=
  (List.range a.nodes.size).filter fun i => (a.node i).parent.isNone

private theorem clearParent_linked {nodes : Array Node} {c limit : Nat} (h : Linked nodes limit) :
    Linked (nodes.modify c fun n => { n with parent := none }) limit := by
  intro i hi
  rw [Array.size_modify] at hi
  have hn := h i hi
  by_cases hc : c = i
  · subst hc
    simp only [Array.getElem_modify_self]
    exact ⟨hn.1, hn.2.1, by simp⟩
  · simp only [Array.getElem_modify_of_ne hc]
    exact hn

def finish (a : Arena) (source : String) (root : Nat) : Tree where
  source := source
  arena :=
    { nodes := a.nodes.modify root fun n => { n with parent := none }
      linked := by rw [Array.size_modify]; exact clearParent_linked a.linked }
  root := root

theorem node_finish (a : Arena) (source : String) (root i : Nat) :
    (a.finish source root).node i =
      if i = root then { a.node i with parent := none } else a.node i := by
  rw [Tree.node, node_eq_getD, node_eq_getD]
  change (a.nodes.modify root fun n => { n with parent := none })[i]?.getD _ = _
  rw [Array.getElem?_modify]
  by_cases h : root = i
  · subst h
    cases hn : a.nodes[root]? <;> simp
  · have h' : i ≠ root := fun hi => h hi.symm
    simp [h, h']

@[simp] theorem size_finish (a : Arena) (source : String) (root : Nat) :
    (a.finish source root).size = a.size := by
  simp [Tree.size, finish, size]

/-- Add a root over the whole source for all nodes that have no parent yet. -/
def finishWithRoot (a : Arena) (source : String) (kind : String) : Tree :=
  (a.add (.other kind) ⟨0, Text.byteLength source.toList⟩ a.orphans).finish source a.next

end Arena
end CoroutineCheck

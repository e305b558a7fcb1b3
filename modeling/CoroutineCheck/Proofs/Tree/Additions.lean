import CoroutineCheck.Proofs.Tree.Enclosing
import CoroutineCheck.Proofs.Tree.Growth
import Mathlib.Data.List.Induction
/-!
# Trees from additions

A tree is made by adding nodes one after the other, each over nodes that are there already, and at the end
a root over all nodes that nobody has used. As long as every node is used once, each addition keeps what
was recorded before and only takes tops under a new one. So the tree has every node once, in the list of
its only parent, and the lists are in source order.
-/
namespace CoroutineCheck

structure Addition where
  shape : Shape
  span : Span
  extra : List Nat

namespace Addition

def uses (x : Addition) : List Nat := x.shape.parts ++ x.extra

/-- Children are added before the node that uses them, and no node is used twice: neither by two additions
nor twice by one shape. The further children of an addition may repeat each other and the shape. -/
structure Orderly (xs : List Addition) : Prop where
  earlier : ∀ i (h : i < xs.length), ∀ c ∈ xs[i].uses, c < i
  parts_nodup : ∀ x ∈ xs, x.shape.parts.Nodup
  apart : xs.Pairwise fun x y => ∀ c ∈ x.uses, c ∉ y.uses

theorem Orderly.init {xs : List Addition} {x : Addition} (h : Orderly (xs ++ [x])) : Orderly xs where
  earlier i hi := by
    have hearlier := h.earlier i (by rw [List.length_append]; omega)
    rwa [List.getElem_append_left hi] at hearlier
  parts_nodup y hy := h.parts_nodup y (List.mem_append_left _ hy)
  apart := (List.pairwise_append.mp h.apart).1

private theorem Orderly.last_earlier {xs : List Addition} {x : Addition} (h : Orderly (xs ++ [x])) :
    ∀ c ∈ x.uses, c < xs.length := by
  have hearlier := h.earlier xs.length (by simp)
  rwa [List.getElem_concat_length rfl] at hearlier

end Addition

namespace Arena

def addAll (a : Arena) (xs : List Addition) : Arena :=
  xs.foldl (fun a x => a.add x.shape x.span x.extra) a

/-- The arena holds one node for each addition, and its nodes form whole trees. -/
structure Holds (a : Arena) (xs : List Addition) : Prop where
  size_eq : a.size = xs.length
  grows : Arena.empty.Grows a a.orphans
  node_eq : ∀ i (h : i < xs.length), (a.node i).shape = xs[i].shape ∧ (a.node i).span = xs[i].span ∧
    ∀ c, c ∈ (a.node i).children ↔ c ∈ xs[i].uses
  ordered : ∀ p, (a.node p).children.Pairwise fun c d => a.sourceOrder c d = true

private theorem holds_empty : empty.Holds [] where
  size_eq := rfl
  grows := orphans_of_grows (Grows.refl empty) ▸ Grows.refl empty
  node_eq i hi := absurd hi (Nat.not_lt_zero i)
  ordered p := by
    rw [node_of_size_le (Nat.zero_le p)]
    exact .nil

namespace Holds

variable {a : Arena} {xs : List Addition}

private theorem mem_orphans_iff (h : a.Holds xs) {i : Nat} :
    i ∈ a.orphans ↔ i < xs.length ∧ ∀ x ∈ xs, i ∉ x.uses := by
  constructor
  · intro hi
    have hlt := (h.grows.top_new i hi).2
    have hnone := (h.grows.orphan_iff i (Nat.zero_le i) hlt).mpr hi
    refine ⟨h.size_eq ▸ hlt, fun x hx hused => ?_⟩
    obtain ⟨p, hp, rfl⟩ := List.getElem_of_mem hx
    have hchild := ((h.node_eq p hp).2.2 i).mpr hused
    rw [(h.grows.child_iff p (Nat.zero_le p) i).mp hchild] at hnone
    cases hnone
  · rintro ⟨hlt, hfree⟩
    -- A parent would be a node that some addition put over `i`.
    refine (h.grows.orphan_iff i (Nat.zero_le i) (by rw [h.size_eq]; exact hlt)).mp ?_
    refine Option.eq_none_iff_forall_ne_some.mpr fun p hp => ?_
    have hps : p < xs.length := h.size_eq ▸ (lt_parent hp).2
    have hchild := (h.grows.child_iff p (Nat.zero_le p) i).mpr hp
    exact hfree _ (List.getElem_mem hps) (((h.node_eq p hps).2.2 i).mp hchild)

variable {x : Addition}

private theorem childrenOf_orphans (h : a.Holds xs) (ho : Addition.Orderly (xs ++ [x])) :
    ∀ c ∈ a.childrenOf x.shape x.extra, c ∈ a.orphans := by
  intro c hc
  have hused : c ∈ x.uses := List.mem_append.mpr (mem_childrenOf.mp hc)
  refine h.mem_orphans_iff.mpr ⟨ho.last_earlier c hused, fun y hy hyc => ?_⟩
  exact (List.pairwise_append.mp ho.apart).2.2 y hy x (List.mem_singleton_self x) c hyc hused

theorem add (h : a.Holds xs) (ho : Addition.Orderly (xs ++ [x])) :
    (a.add x.shape x.span x.extra).Holds (xs ++ [x]) := by
  have hover := h.childrenOf_orphans ho
  have hlt : ∀ c ∈ a.childrenOf x.shape x.extra, c < a.size := fun c hc =>
    (h.grows.top_new c (hover c hc)).2
  have hself : (a.add x.shape x.span x.extra).node a.size =
      ⟨x.shape, x.span, none, a.childrenOf x.shape x.extra⟩ := node_add_self hlt
  constructor
  case size_eq => rw [size_add, h.size_eq, List.length_append, List.length_singleton]
  case grows =>
    have hgrows := h.grows.addOver x.span (ho.parts_nodup x (by simp)) hover
    exact orphans_of_grows hgrows ▸ hgrows
  case node_eq =>
    intro i hi
    by_cases hlast : i = xs.length
    · subst hlast
      rw [List.getElem_concat_length rfl, ← h.size_eq, hself]
      exact ⟨rfl, rfl, fun c => mem_childrenOf.trans List.mem_append.symm⟩
    · have hi' : i < xs.length := by
        rw [List.length_append, List.length_singleton] at hi
        omega
      obtain ⟨p, hp⟩ : ∃ p, (a.add x.shape x.span x.extra).node i = _ :=
        exists_node_add_lt hlt (h.size_eq ▸ hi')
      rw [List.getElem_append_left hi', hp]
      exact h.node_eq i hi'
  case ordered =>
    intro p
    -- The order looks at spans alone, and those of the older nodes stay.
    have hkeep {cs : List Nat} (hcs : ∀ c ∈ cs, c < a.size)
        (hordered : cs.Pairwise fun c d => a.sourceOrder c d = true) :
        cs.Pairwise fun c d => (a.add x.shape x.span x.extra).sourceOrder c d = true := by
      refine hordered.imp_of_mem fun {c d} hc hd hcd => ?_
      rw [sourceOrder_iff] at hcd ⊢
      rwa [span_add_lt hlt (hcs c hc), span_add_lt hlt (hcs d hd)]
    by_cases hp : p < a.size
    · rw [children_add_lt hlt hp]
      exact hkeep (fun c hc => Nat.lt_trans (children_lt hc) hp) (h.ordered p)
    · by_cases hlast : p = a.size
      · rw [hlast, hself]
        exact hkeep hlt (a.pairwise_sourceOrder_inOrder _)
      · rw [node_of_size_le (by rw [size_add]; omega)]
        exact .nil

end Holds

private theorem holds_addAll {xs : List Addition} (h : Addition.Orderly xs) : (empty.addAll xs).Holds xs := by
  induction xs using List.reverseRecOn with
  | nil => exact holds_empty
  | append_singleton xs x ih =>
    rw [addAll, List.foldl_append]
    exact (ih h.init).add h

end Arena

/-- The order of siblings: by the start of their spans, then by age. -/
def Tree.Before (t : Tree) (c d : Nat) : Prop :=
  (t.span c).start < (t.span d).start ∨ (t.span c).start = (t.span d).start ∧ c < d

/-- The tree has a node for each addition and a root over those that no addition uses. Every node but the
root has one parent and stands once in its list and in no other, lists are in order and hold the parts
of the shape, and all nodes are below the root, where a walk comes to each of them once. -/
structure Tree.BuiltFrom (t : Tree) (xs : List Addition) : Prop where
  size_eq : t.size = xs.length + 1
  root_eq : t.root = xs.length
  node_eq : ∀ i (h : i < xs.length), t.shape i = xs[i].shape ∧ t.span i = xs[i].span ∧
    ∀ c, c ∈ t.children i ↔ c ∈ xs[i].uses
  root_adopts : ∀ c, c ∈ t.children t.root ↔ c < xs.length ∧ ∀ x ∈ xs, c ∉ x.uses
  child_older : ∀ p, ∀ c ∈ t.children p, c < p
  part_child : ∀ p, ∀ c ∈ (t.shape p).parts, c ∈ t.children p
  one_parent : ∀ i, i < t.size → i ≠ t.root →
    ∃ p, t.parent? i = some p ∧ (t.children p).count i = 1 ∧ ∀ q, q ≠ p → i ∉ t.children q
  root_free : t.parent? t.root = none ∧ ∀ p, t.root ∉ t.children p
  children_ordered : ∀ p, (t.children p).Pairwise t.Before
  ancestors_end : ∀ i, i < t.size → (i :: t.ancestors i).getLast? = some t.root
  walk_perm : (t.walk t.root).Perm (List.range t.size)

namespace Arena.Holds

variable {a : Arena} {xs : List Addition} (h : a.Holds xs) (source kind : String)

include h

private theorem finishWithRoot_node {i : Nat} (hi : i < xs.length) :
    (a.finishWithRoot source kind).shape i = (a.node i).shape ∧
    (a.finishWithRoot source kind).span i = (a.node i).span ∧
    (a.finishWithRoot source kind).children i = (a.node i).children := by
  obtain ⟨p, hp⟩ := node_finishWithRoot_lt h.grows source kind (h.size_eq ▸ hi)
  simp only [Tree.shape, Tree.span, Tree.children, hp, and_self]

private theorem finishWithRoot_cases (i : Nat) : i < xs.length ∨ i = xs.length ∨
    (a.finishWithRoot source kind).node i = ⟨.other "", ⟨0, 0⟩, none, []⟩ := by
  have hsize : (a.finishWithRoot source kind).size = xs.length + 1 := by
    rw [size_finishWithRoot, h.size_eq]
  rcases Nat.lt_trichotomy i xs.length with hi | hi | hi
  · exact .inl hi
  · exact .inr (.inl hi)
  · exact .inr (.inr (node_of_size_le (Nat.le_trans (Nat.le_of_eq hsize) hi)))

private theorem finishWithRoot_children_root :
    (a.finishWithRoot source kind).children xs.length = a.childrenOf (.other kind) a.orphans := by
  rw [Tree.children, ← h.size_eq, node_finishWithRoot_root h.grows]

private theorem pairwise_before {cs : List Nat} (hcs : ∀ c ∈ cs, c < xs.length) (hnodup : cs.Nodup)
    (hordered : cs.Pairwise fun c d => a.sourceOrder c d = true) :
    cs.Pairwise (a.finishWithRoot source kind).Before := by
  refine (hordered.and hnodup).imp_of_mem fun {c d} hc hd hcd => ?_
  obtain ⟨horder, hne⟩ := hcd
  rw [sourceOrder_iff] at horder
  rw [Tree.Before, (h.finishWithRoot_node source kind (hcs c hc)).2.1,
    (h.finishWithRoot_node source kind (hcs d hd)).2.1]
  omega

private theorem children_before (p : Nat) :
    ((a.finishWithRoot source kind).children p).Pairwise (a.finishWithRoot source kind).Before := by
  have hnodup := (rooted_finishWithRoot h.grows source kind).nodup_children p
  rcases h.finishWithRoot_cases source kind p with hp | rfl | hnone
  · have hchildren := (h.finishWithRoot_node source kind hp).2.2
    rw [hchildren] at hnodup ⊢
    exact h.pairwise_before source kind (fun c hc => Nat.lt_trans (children_lt hc) hp) hnodup (h.ordered p)
  · rw [h.finishWithRoot_children_root] at hnodup ⊢
    refine h.pairwise_before source kind (fun c hc => ?_) hnodup (a.pairwise_sourceOrder_inOrder _)
    rw [mem_childrenOf] at hc
    exact (h.mem_orphans_iff.mp (hc.resolve_left List.not_mem_nil)).1
  · rw [Tree.children, hnone]
    exact .nil

end Arena.Holds

namespace Addition.Orderly

variable {xs : List Addition} (h : Orderly xs) (source kind : String)

include h

theorem rooted : ((Arena.empty.addAll xs).finishWithRoot source kind).Rooted :=
  Arena.rooted_finishWithRoot (Arena.holds_addAll h).grows source kind

theorem nodup_parts (id : Nat) :
    (((Arena.empty.addAll xs).finishWithRoot source kind).shape id).parts.Nodup := by
  have hholds := Arena.holds_addAll h
  rcases hholds.finishWithRoot_cases source kind id with hid | rfl | hnone
  · rw [(hholds.finishWithRoot_node source kind hid).1, (hholds.node_eq id hid).1]
    exact h.parts_nodup _ (List.getElem_mem hid)
  · rw [Tree.shape, ← hholds.size_eq, Arena.node_finishWithRoot_root hholds.grows]
    exact .nil
  · rw [Tree.shape, hnone]
    exact .nil

end Addition.Orderly

/-- Additions in which children come before parents and no node is used twice, closed by a root over what
is left, make a tree. -/
theorem Arena.finishWithRoot_builtFrom {xs : List Addition} (h : Addition.Orderly xs)
    (source kind : String) : ((empty.addAll xs).finishWithRoot source kind).BuiltFrom xs := by
  have hholds := holds_addAll h
  have hrooted := h.rooted source kind
  have hroot : ((empty.addAll xs).finishWithRoot source kind).root = xs.length := hholds.size_eq
  constructor
  case size_eq => rw [size_finishWithRoot, hholds.size_eq]
  case root_eq => exact hroot
  case node_eq =>
    intro i hi
    obtain ⟨hshape, hspan, hchildren⟩ := hholds.finishWithRoot_node source kind hi
    rw [hshape, hspan, hchildren]
    exact hholds.node_eq i hi
  case root_adopts =>
    intro c
    rw [hroot, hholds.finishWithRoot_children_root, mem_childrenOf, ← hholds.mem_orphans_iff]
    simp [Shape.parts]
  case child_older => exact fun p c hc => Tree.children_lt hc
  case part_child => exact fun p c hc => parts_subset hc
  case one_parent => exact fun i hi hne => hrooted.count_children hi hne
  case root_free =>
    refine ⟨hrooted.root_parent, fun p hp => ?_⟩
    rw [hrooted.mem_children_iff, hrooted.root_parent] at hp
    cases hp
  case children_ordered => exact hholds.children_before source kind
  case ancestors_end => exact fun i hi => hrooted.getLast?_ancestors hi
  case walk_perm => exact hrooted.walk_root_perm

/-- `f(x) g`, where the argument is added before the callee and the call names its children again. -/
def Addition.callAndName : List Addition :=
  [⟨.identifier "x", ⟨2, 3⟩, []⟩, ⟨.argument none 0, ⟨2, 3⟩, []⟩, ⟨.identifier "f", ⟨0, 1⟩, []⟩,
    ⟨.call none 2 [1] none, ⟨0, 4⟩, [1, 2, 1]⟩, ⟨.identifier "g", ⟨5, 6⟩, []⟩]

theorem Arena.finishWithRoot_builtFrom_callAndName :
    Addition.Orderly Addition.callAndName ∧
    ((empty.addAll Addition.callAndName).finishWithRoot "f(x) g" "file").BuiltFrom Addition.callAndName ∧
    ((empty.addAll Addition.callAndName).finishWithRoot "f(x) g" "file").children 3 = [2, 1] ∧
    ((empty.addAll Addition.callAndName).finishWithRoot "f(x) g" "file").walk 5 = [5, 3, 2, 1, 0, 4] := by
  have horderly : Addition.Orderly Addition.callAndName := ⟨by decide, by decide, by decide⟩
  exact ⟨horderly, finishWithRoot_builtFrom horderly _ _, by decide +kernel, by decide +kernel⟩

end CoroutineCheck

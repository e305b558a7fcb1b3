import CoroutineCheck.Proofs.Tree.Additions
/-!
# Walks with a stack and walks by recursion

A walk takes the next node from a stack and puts its children there, until the stack is empty. Whatever
stands on the stack, the nodes to come are the recursive walks of its entries one after the other. So a
walk comes to an end and has then given the recursive walk of its start. In a tree where spans nest and
siblings follow one another the nodes come in the order in which they begin.
-/
namespace CoroutineCheck.Tree

variable {t : Tree}

/-! ## One node after the other -/

/-- A call for the next node. The last entry of the stack is taken, and the children of a node that
is entered are put behind the rest, the first child last. -/
def next? (t : Tree) (enter : Nat → Bool) (stack : List Nat) : Option (Nat × List Nat) :=
  stack.getLast?.map fun id =>
    (id, stack.dropLast ++ if enter id then (t.children id).reverse else [])

/-- Calls that begin with one stack give these nodes and leave the other stack. -/
inductive Yields (t : Tree) (enter : Nat → Bool) : (stack ids rest : List Nat) → Prop where
  | none (stack : List Nat) : Yields t enter stack [] stack
  | next {stack stack' ids rest : List Nat} {id : Nat} : t.next? enter stack = some (id, stack') →
      Yields t enter stack' ids rest → Yields t enter stack (id :: ids) rest

private theorem next?_reverse_cons (t : Tree) (enter : Nat → Bool) (id : Nat) (rest : List Nat) :
    t.next? enter (id :: rest).reverse =
      some (id, ((if enter id then t.children id else []) ++ rest).reverse) := by
  simp only [next?, List.reverse_cons, List.getLast?_concat, Option.map_some, List.dropLast_concat,
    List.reverse_append]
  split <;> rfl

private theorem yields_visit (t : Tree) (enter : Nat → Bool) (stack : List Nat) :
    t.Yields enter stack.reverse (t.visit enter stack) [] := by
  fun_induction visit t enter stack with
  | case1 => exact .none []
  | case2 id rest ihEnter ihSkip =>
    -- The list has its top in front, the calls take it from the end.
    have hnext := t.next?_reverse_cons enter id rest
    by_cases he : enter id = true
    · rw [if_pos he] at hnext ⊢
      exact .next hnext ihEnter
    · rw [if_neg he, List.nil_append] at hnext
      rw [if_neg he]
      exact .next hnext ihSkip

/-! ## The same by recursion -/

/-- A node, then the walks of its children in order; the children of a node for which `prune` holds are
left out, unless it is the start. -/
def preorder (t : Tree) (prune : Nat → Bool) (start id : Nat) : List Nat :=
  id :: if id ≠ start ∧ prune id = true then [] else
    (t.children id).attach.flatMap fun ⟨c, _⟩ => t.preorder prune start c
termination_by id
decreasing_by exact children_lt ‹_›

private theorem preorder_eq (t : Tree) (prune : Nat → Bool) (start id : Nat) :
    t.preorder prune start id = id :: if id ≠ start ∧ prune id = true then [] else
      (t.children id).flatMap (t.preorder prune start) := by
  rw [preorder, List.flatMap_subtype (fun _ _ => rfl), List.unattach_attach]

/-- What is still to come is the walk of every entry of the stack, from the top. -/
theorem visit_eq_preorder (t : Tree) (prune : Nat → Bool) (start : Nat) (stack : List Nat) :
    t.visit (fun id => id == start || !prune id) stack = stack.flatMap (t.preorder prune start) := by
  fun_induction visit t _ stack with
  | case1 => rfl
  | case2 id rest ihEnter ihSkip =>
    rw [List.flatMap_cons, preorder_eq, List.cons_append]
    by_cases hskip : id ≠ start ∧ prune id = true
    · have henter : ¬ (id == start || !prune id) = true := by
        simp [hskip.1, hskip.2]
      rw [if_neg henter, if_pos hskip, ihSkip, List.nil_append]
    · have henter : (id == start || !prune id) = true := by
        rw [not_and, Bool.not_eq_true] at hskip
        rw [Bool.or_eq_true, beq_iff_eq, Bool.not_eq_true']
        exact or_iff_not_imp_left.mpr hskip
      rw [if_pos henter, if_neg hskip, ihEnter, List.flatMap_append]

/-! ## What is visited, and in which order -/

structure Between (t : Tree) (start x n : Nat) : Prop where
  below : t.Under start x
  ne_start : x ≠ start
  above : t.Under x n
  ne_end : x ≠ n

theorem Branching.mem_walkPruned_iff (h : t.Branching) {prune : Nat → Bool} {start n : Nat} :
    n ∈ t.walkPruned prune start ↔
      t.Under start n ∧ ∀ x, t.Between start x n → prune x = false := by
  simp only [walkPruned, mem_visit_iff, List.mem_singleton, exists_eq_left, h.leads_iff, Bool.or_eq_true,
    beq_iff_eq, Bool.not_eq_true']
  refine and_congr_right fun _ => ⟨fun hway x hx => ?_, fun hway x hsx hxn hne => ?_⟩
  · exact (hway x hx.below hx.above hx.ne_end).resolve_left hx.ne_start
  · exact or_iff_not_imp_left.mpr fun hstart => hway x ⟨hsx, hstart, hxn, hne⟩

/-- Spans run forwards, children lie in their parents, and each sibling ends before the next begins. -/
structure InSourceOrder (t : Tree) : Prop where
  forward : ∀ id, (t.span id).start ≤ (t.span id).stop
  nested : t.Nested
  siblings : ∀ p, (t.children p).Pairwise fun c d => (t.span c).stop ≤ (t.span d).start

namespace InSourceOrder

variable (h : t.InSourceOrder)

include h

private theorem start_le_of_under {top n : Nat} (hu : t.Under top n) :
    (t.span top).start ≤ (t.span n).start :=
  (Span.contains_iff.mp (h.nested.contains_under hu)).1

/-- Nodes come in the order in which they begin if the entries of the stack follow one another. -/
private theorem pairwise_visit (enter : Nat → Bool) (stack : List Nat)
    (hs : stack.Pairwise fun x y => (t.span x).stop ≤ (t.span y).start) :
    (t.visit enter stack).Pairwise fun x y => (t.span x).start ≤ (t.span y).start := by
  fun_induction visit t enter stack with
  | case1 => exact .nil
  | case2 id rest ihEnter ihSkip =>
    obtain ⟨hid, hrest⟩ := List.pairwise_cons.mp hs
    -- What comes from further down the stack begins behind the end of the top.
    have hforward := h.forward id
    have hlater {s n : Nat} (hs : s ∈ rest) (hl : t.Leads enter s n) :
        (t.span id).start ≤ (t.span n).start := by
      have hstop := hid s hs
      have hstart := h.start_le_of_under hl.under
      omega
    by_cases he : enter id = true
    · rw [if_pos he]
      refine List.pairwise_cons.mpr ⟨?_, ihEnter (List.pairwise_append.mpr ⟨h.siblings id, hrest, ?_⟩)⟩
      · intro n hn
        obtain ⟨s, hs, hl⟩ := mem_visit_iff.mp hn
        rcases List.mem_append.mp hs with hs | hs
        · exact h.start_le_of_under (hl.under.head hs)
        · exact hlater hs hl
      · intro c hc s hs
        exact Nat.le_trans (Span.contains_iff.mp (h.nested id c hc)).2 (hid s hs)
    · rw [if_neg he]
      refine List.pairwise_cons.mpr ⟨?_, ihSkip hrest⟩
      intro n hn
      obtain ⟨s, hs, hl⟩ := mem_visit_iff.mp hn
      exact hlater hs hl

end InSourceOrder

theorem InSourceOrder.of_lt (hforward : ∀ id < t.size, (t.span id).start ≤ (t.span id).stop)
    (hnested : ∀ p < t.size, ∀ c ∈ t.children p, (t.span p).contains (t.span c) = true)
    (hsiblings : ∀ p < t.size, (t.children p).Pairwise fun c d => (t.span c).stop ≤ (t.span d).start) :
    t.InSourceOrder := by
  have houtside {id : Nat} (hid : ¬ id < t.size) : t.node id = ⟨.other "", ⟨0, 0⟩, none, []⟩ :=
    Arena.node_of_size_le (Nat.not_lt.mp hid)
  refine ⟨fun id => ?_, fun p => ?_, fun p => ?_⟩
  · by_cases hid : id < t.size
    · exact hforward id hid
    · simp [span, houtside hid]
  · by_cases hp : p < t.size
    · exact hnested p hp
    · simp [children, houtside hp]
  · by_cases hp : p < t.size
    · exact hsiblings p hp
    · simp [children, houtside hp]

/-- The walk with a stack comes to an end and gives the walk by recursion. It visits the start and every
node below it with no pruned node strictly between the two, each once. In a tree in source order the
visited nodes begin one after the other, whether some are pruned or none. -/
theorem walkPruned_exact (h : t.Branching) (prune : Nat → Bool) (start : Nat) :
    t.Yields (fun id => id == start || !prune id) [start] (t.walkPruned prune start) [] ∧
    t.next? (fun id => id == start || !prune id) [] = none ∧
    t.walkPruned prune start = t.preorder prune start start ∧
    (∀ n, n ∈ t.walkPruned prune start ↔
      t.Under start n ∧ ∀ x, t.Between start x n → prune x = false) ∧
    (t.walkPruned prune start).Nodup ∧
    (t.InSourceOrder →
      (t.walkPruned prune start).Pairwise fun x y => (t.span x).start ≤ (t.span y).start) := by
  refine ⟨t.yields_visit _ [start], rfl, ?_, fun n => h.mem_walkPruned_iff,
    h.nodup_walkPruned prune start, ?_⟩
  · rw [walkPruned, visit_eq_preorder, List.flatMap_singleton]
  · exact fun horder => horder.pairwise_visit _ _ (List.pairwise_singleton _ _)

/-- The tree of `f(x) g`: the root is 5, the call 3, its callee 2, its argument 1 and the value 0. -/
def callAndNameTree : Tree := (Arena.empty.addAll Addition.callAndName).finishWithRoot "f(x) g" "file"

theorem walkPruned_exact_callAndName :
    callAndNameTree.Branching ∧ callAndNameTree.InSourceOrder ∧
    callAndNameTree.walkPruned (· == 3) 5 = [5, 3, 4] ∧
    callAndNameTree.Yields (fun id => id == 5 || !(id == 3)) [5] [5, 3, 4] [] ∧
    callAndNameTree.preorder (· == 3) 5 5 = [5, 3, 4] ∧
    [5, 3, 4].Pairwise fun x y => (callAndNameTree.span x).start ≤ (callAndNameTree.span y).start := by
  have hbranching : callAndNameTree.Branching :=
    (Addition.Orderly.rooted ⟨by decide, by decide, by decide⟩ _ _).branching
  have horder : callAndNameTree.InSourceOrder := .of_lt (by decide +kernel) (by decide +kernel)
    (by decide +kernel)
  have hwalk : callAndNameTree.walkPruned (· == 3) 5 = [5, 3, 4] := by decide +kernel
  obtain ⟨hyields, _, hpreorder, _, _, hstarts⟩ := walkPruned_exact hbranching (· == 3) 5
  rw [hwalk] at hyields hpreorder hstarts
  exact ⟨hbranching, horder, hwalk, hyields, hpreorder.symm, hstarts horder⟩

-- Siblings that are only sorted by their starts are not enough: node 0 begins at 8 and comes before
-- node 2, which begins at 5.
example : ((Arena.empty.addAll [⟨.other "", ⟨8, 9⟩, []⟩, ⟨.lambda, ⟨0, 10⟩, [0]⟩,
    ⟨.other "", ⟨5, 6⟩, []⟩]).finishWithRoot "0123456789" "file").walk 3 = [3, 1, 0, 2] := by
  decide +kernel

end CoroutineCheck.Tree

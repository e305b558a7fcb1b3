import CoroutineCheck.Tree.Walk
import Mathlib.Logic.Relation
/-!
# What a walk visits

A walk visits the nodes that its stack leads to through entered nodes. In a tree whose parent links and
lists of children agree, the full walk from the root visits every node once.
-/
namespace CoroutineCheck.Tree

/-- A node at or below another. -/
def Under (t : Tree) : (top node : Nat) → Prop :=
  Relation.ReflTransGen fun p c => c ∈ t.children p

/-- A node that a walk comes to from another through entered nodes. -/
def Leads (t : Tree) (enter : Nat → Bool) : (start node : Nat) → Prop :=
  Relation.ReflTransGen fun p c => enter p = true ∧ c ∈ t.children p

theorem Leads.under {t : Tree} {enter : Nat → Bool} {s n : Nat} (h : t.Leads enter s n) :
    t.Under s n := by
  induction h with
  | refl => exact .refl
  | tail _ hc ih => exact ih.tail hc.2

private theorem Under.leads {t : Tree} {enter : Nat → Bool} {s n : Nat} (h : t.Under s n)
    (he : ∀ id, enter id = true) : t.Leads enter s n := by
  induction h with
  | refl => exact .refl
  | tail _ hc ih => exact ih.tail ⟨he _, hc⟩

theorem Under.le {t : Tree} {top n : Nat} (h : t.Under top n) : n ≤ top := by
  induction h with
  | refl => exact Nat.le_refl _
  | tail _ hc ih => exact Nat.le_trans (Nat.le_of_lt (children_lt hc)) ih

theorem mem_visit_iff {t : Tree} {enter : Nat → Bool} {stack : List Nat} {n : Nat} :
    n ∈ t.visit enter stack ↔ ∃ s ∈ stack, t.Leads enter s n := by
  fun_induction visit t enter stack with
  | case1 => simp
  | case2 id rest ihEnter ihSkip =>
    rw [List.mem_cons]
    by_cases he : enter id = true
    · simp only [if_pos he, ihEnter, List.mem_append, List.mem_cons]
      constructor
      · rintro (rfl | ⟨s, hs | hs, hl⟩)
        · exact ⟨n, .inl rfl, .refl⟩
        · exact ⟨id, .inl rfl, .head ⟨he, hs⟩ hl⟩
        · exact ⟨s, .inr hs, hl⟩
      · rintro ⟨s, rfl | hs, hl⟩
        · rcases Relation.ReflTransGen.cases_head hl with rfl | ⟨c, hc, hl⟩
          · exact .inl rfl
          · exact .inr ⟨c, .inl hc.2, hl⟩
        · exact .inr ⟨s, .inr hs, hl⟩
    · simp only [if_neg he, ihSkip, List.mem_cons]
      constructor
      · rintro (rfl | ⟨s, hs, hl⟩)
        · exact ⟨n, .inl rfl, .refl⟩
        · exact ⟨s, .inr hs, hl⟩
      · rintro ⟨s, rfl | hs, hl⟩
        · rcases Relation.ReflTransGen.cases_head hl with rfl | ⟨c, hc, _⟩
          · exact .inl rfl
          · exact absurd hc.1 he
        · exact .inr ⟨s, hs, hl⟩

theorem under_of_mem_walkPruned {t : Tree} {prune : Nat → Bool} {start n : Nat}
    (h : n ∈ t.walkPruned prune start) : t.Under start n := by
  obtain ⟨s, hs, hl⟩ := mem_visit_iff.mp h
  rw [List.mem_singleton] at hs
  exact hs ▸ hl.under

theorem mem_walk_iff {t : Tree} {start n : Nat} : n ∈ t.walk start ↔ t.Under start n := by
  constructor
  · exact under_of_mem_walkPruned
  · intro h
    exact mem_visit_iff.mpr ⟨start, List.mem_singleton_self start, h.leads fun _ => by simp⟩

def Nested (t : Tree) : Prop :=
  ∀ p c, c ∈ t.children p → (t.span p).contains (t.span c) = true

theorem Nested.contains_under {t : Tree} (h : t.Nested) {top n : Nat} (hu : t.Under top n) :
    (t.span top).contains (t.span n) = true := by
  induction hu with
  | refl => exact Span.contains_self _
  | tail _ hc ih => exact Span.contains_trans ih (h _ _ hc)

/-- No node is a child twice, neither of one node nor of two. -/
structure Branching (t : Tree) : Prop where
  nodup_children : ∀ p, (t.children p).Nodup
  parent_unique : ∀ p q c, c ∈ t.children p → c ∈ t.children q → p = q

namespace Branching

variable {t : Tree} (h : t.Branching)

include h

theorem under_and_ne_iff {c n p : Nat} (hn : n ∈ t.children p) :
    t.Under c n ∧ c ≠ n ↔ t.Under c p := by
  constructor
  · rintro ⟨hu, hne⟩
    rcases Relation.ReflTransGen.cases_tail hu with hcn | ⟨q, hq, hqn⟩
    · exact absurd hcn.symm hne
    · exact h.parent_unique q p n hqn hn ▸ hq
  · intro hu
    have hle := Under.le hu
    have hlt := children_lt hn
    exact ⟨hu.tail hn, by omega⟩

theorem under_or_under {x y n : Nat} (hx : t.Under x n) (hy : t.Under y n) :
    t.Under x y ∨ t.Under y x := by
  have huniq : Relator.RightUnique (Function.swap fun p c => c ∈ t.children p) :=
    fun c p q hp hq => h.parent_unique p q c hp hq
  have hx' := Relation.reflTransGen_swap.mpr hx
  have hy' := Relation.reflTransGen_swap.mpr hy
  rcases Relation.ReflTransGen.total_of_right_unique huniq hx' hy' with hxy | hyx
  · exact .inr (Relation.reflTransGen_swap.mp hxy)
  · exact .inl (Relation.reflTransGen_swap.mp hyx)

theorem children_apart {p x y n : Nat} (hxp : x ∈ t.children p) (hyp : y ∈ t.children p)
    (hxy : x ≠ y) (hx : t.Under x n) : ¬ t.Under y n := by
  -- The lower of the two would have its parent `p` at or below the other.
  have hno : ∀ {a b : Nat}, a ∈ t.children p → b ∈ t.children p → a ≠ b → ¬ t.Under a b := by
    intro a b ha hb hne hu
    have hle := Under.le ((h.under_and_ne_iff hb).mp ⟨hu, hne⟩)
    have hlt := children_lt ha
    omega
  intro hy
  rcases h.under_or_under hx hy with hu | hu
  · exact hno hxp hyp hxy hu
  · exact hno hyp hxp hxy.symm hu

private theorem nodup_visit (enter : Nat → Bool) (stack : List Nat)
    (hs : stack.Pairwise fun x y => ∀ n, t.Under x n → ¬ t.Under y n) :
    (t.visit enter stack).Nodup := by
  fun_induction visit t enter stack with
  | case1 => exact .nil
  | case2 id rest ihEnter ihSkip =>
    obtain ⟨hid, hrest⟩ := List.pairwise_cons.mp hs
    by_cases he : enter id = true
    · rw [if_pos he]
      refine List.nodup_cons.mpr ⟨?_, ihEnter (List.pairwise_append.mpr ⟨?_, hrest, ?_⟩)⟩
      · intro hmem
        obtain ⟨s, hs, hl⟩ := mem_visit_iff.mp hmem
        rcases List.mem_append.mp hs with hs | hs
        · have hle := Under.le hl.under
          have hlt := children_lt hs
          omega
        · exact hid s hs id .refl hl.under
      · exact (h.nodup_children id).imp_of_mem fun hx hy hxy n hxn =>
          h.children_apart hx hy hxy hxn
      · intro c hc s hs n hn
        exact hid s hs n (.head hc hn)
    · rw [if_neg he]
      refine List.nodup_cons.mpr ⟨?_, ihSkip hrest⟩
      intro hmem
      obtain ⟨s, hs, hl⟩ := mem_visit_iff.mp hmem
      exact hid s hs id .refl hl.under

theorem nodup_walkPruned (prune : Nat → Bool) (start : Nat) :
    (t.walkPruned prune start).Nodup :=
  h.nodup_visit _ _ (List.pairwise_singleton _ _)

end Branching

/-- Parent links and lists of children agree, no list repeats a node, and all nodes but the root have
a parent. -/
structure Rooted (t : Tree) : Prop where
  root_lt : t.root < t.size
  mem_children_iff : ∀ p c, c ∈ t.children p ↔ t.parent? c = some p
  nodup_children : ∀ p, (t.children p).Nodup
  parent_eq_none : ∀ i, i < t.size → t.parent? i = none → i = t.root
  root_parent : t.parent? t.root = none

namespace Rooted

variable {t : Tree} (h : t.Rooted)

include h

theorem branching : t.Branching where
  nodup_children := h.nodup_children
  parent_unique p q c hp hq :=
    Option.some.inj (((h.mem_children_iff p c).mp hp).symm.trans ((h.mem_children_iff q c).mp hq))

theorem parent?_of_mem_parts {p c : Nat} (hc : c ∈ (t.shape p).parts) : t.parent? c = some p :=
  (h.mem_children_iff p c).mp (Arena.parts_subset hc)

theorem under_root {i : Nat} (hi : i < t.size) : t.Under t.root i := by
  -- Parents come later in the arena, so the induction goes down from its end.
  induction hk : t.size - i using Nat.strongRecOn generalizing i with
  | ind k ih =>
    cases hp : t.parent? i with
    | none => exact h.parent_eq_none i hi hp ▸ .refl
    | some p =>
      have hlt := lt_parent hp
      have hup := ih (t.size - p) (by omega) hlt.2 rfl
      exact hup.tail ((h.mem_children_iff p i).mpr hp)

theorem walk_root_perm : (t.walk t.root).Perm (List.range t.size) := by
  refine (List.perm_ext_iff_of_nodup ?_ List.nodup_range).mpr fun i => ?_
  · exact h.branching.nodup_walkPruned _ _
  · rw [mem_walk_iff, List.mem_range]
    constructor
    · intro hu
      have hle := Under.le hu
      have hlt := h.root_lt
      omega
    · exact h.under_root

end Rooted
end CoroutineCheck.Tree

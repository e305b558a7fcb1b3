import CoroutineCheck.Proofs.Tree.Walks
import Mathlib.Data.List.Nodup
/-!
# Nodes around a node

In a rooted tree the nodes strictly above a node form a chain, the list of its ancestors. So there is
at most one innermost node around it with a property, and a search among the ancestors finds it. A walk
that leaves out what lies below some nodes comes to a node exactly if none of those is on the way.
-/
namespace CoroutineCheck.Tree

variable {t : Tree}

private theorem visit_append (t : Tree) (enter : Nat → Bool) (xs ys : List Nat) :
    t.visit enter (xs ++ ys) = t.visit enter xs ++ t.visit enter ys := by
  fun_induction visit t enter xs with
  | case1 => rfl
  | case2 id rest ihEnter ihSkip =>
    rw [List.cons_append, visit]
    by_cases he : enter id = true
    · rw [if_pos he, if_pos he, ← List.append_assoc, ihEnter, List.cons_append]
    · rw [if_neg he, if_neg he, ihSkip, List.cons_append]

private theorem visit_eq_flatMap (t : Tree) (enter : Nat → Bool) (stack : List Nat) :
    t.visit enter stack = stack.flatMap fun id => t.visit enter [id] := by
  induction stack with
  | nil => simp [visit]
  | cons id rest ih =>
    have happ := t.visit_append enter [id] rest
    rw [List.singleton_append] at happ
    rw [happ, ih, List.flatMap_cons]

/-- A walk is in pre-order: first the node, then the walks of its children from left to right. -/
theorem walk_eq (t : Tree) (n : Nat) : t.walk n = n :: (t.children n).flatMap t.walk := by
  have hall {m : Nat} : (fun id => id == m || !false) = fun _ => true := by simp
  have hwalk (m : Nat) : t.walk m = t.visit (fun _ => true) [m] := by
    rw [walk, walkPruned, hall]
  have hchildren : (t.children n).flatMap t.walk = t.visit (fun _ => true) (t.children n) := by
    rw [visit_eq_flatMap, show t.walk = fun m => t.visit (fun _ => true) [m] from funext hwalk]
  rw [hchildren, hwalk, visit, if_pos rfl, List.append_nil]

private theorem Under.eq_or_parent {c n : Nat} (h : t.Under c n) (hr : t.Rooted) :
    c = n ∨ ∃ p, t.parent? n = some p ∧ t.Under c p := by
  rcases Relation.ReflTransGen.cases_tail h with rfl | ⟨p, hp, hn⟩
  · exact .inl rfl
  · exact .inr ⟨p, (hr.mem_children_iff p n).mp hn, hp⟩

/-- The node `c` has the property, lies strictly above `n`, and no other such node lies between. -/
structure Innermost (t : Tree) (q : Nat → Prop) (n c : Nat) : Prop where
  holds : q c
  above : t.Under c n
  ne : c ≠ n
  below_others : ∀ d, q d → t.Under d n → d ≠ n → t.Under d c

theorem Innermost.unique {q : Nat → Prop} {n c d : Nat} (hc : t.Innermost q n c)
    (hd : t.Innermost q n d) : c = d := by
  have hcd := Under.le (hd.below_others c hc.holds hc.above hc.ne)
  have hdc := Under.le (hc.below_others d hd.holds hd.above hd.ne)
  omega

namespace Rooted

variable (h : t.Rooted)

include h

theorem under_and_ne_iff {c n p : Nat} (hp : t.parent? n = some p) :
    t.Under c n ∧ c ≠ n ↔ t.Under c p :=
  h.branching.under_and_ne_iff ((h.mem_children_iff p n).mpr hp)

/-- One step up the chain: the parent if it has the property, else what is innermost around it. -/
theorem innermost_iff_of_parent {q : Nat → Prop} {n c p : Nat} (hp : t.parent? n = some p) :
    t.Innermost q n c ↔ q p ∧ c = p ∨ ¬ q p ∧ t.Innermost q p c := by
  have habove {d : Nat} : t.Under d n ∧ d ≠ n ↔ t.Under d p := h.under_and_ne_iff hp
  by_cases hq : q p
  · simp only [hq, true_and, not_true_eq_false, false_and, or_false]
    have hpn := habove.mpr .refl
    have hparent : t.Innermost q n p := ⟨hq, hpn.1, hpn.2, fun d _ hd hne => habove.mp ⟨hd, hne⟩⟩
    constructor
    · exact fun hc => hc.unique hparent
    · rintro rfl
      exact hparent
  · simp only [hq, false_and, not_false_eq_true, true_and, false_or]
    constructor
    · intro hc
      refine ⟨hc.holds, habove.mp ⟨hc.above, hc.ne⟩, ?_, ?_⟩
      · rintro rfl
        exact hq hc.holds
      · intro d hd hdp _
        have hdn := habove.mpr hdp
        exact hc.below_others d hd hdn.1 hdn.2
    · intro hc
      have hcn := habove.mpr hc.above
      refine ⟨hc.holds, hcn.1, hcn.2, ?_⟩
      intro d hd hdn hne
      refine hc.below_others d hd (habove.mp ⟨hdn, hne⟩) ?_
      rintro rfl
      exact hq hd

theorem mem_ancestors_iff {c n : Nat} : c ∈ t.ancestors n ↔ t.Under c n ∧ c ≠ n := by
  fun_induction ancestors t n with
  | case1 n hp =>
    simp only [List.not_mem_nil, false_iff]
    rintro ⟨hu, hne⟩
    rcases hu.eq_or_parent h with hcn | ⟨p, hp', _⟩
    · exact hne hcn
    · rw [hp] at hp'
      cases hp'
  | case2 n p hp ih =>
    rw [h.under_and_ne_iff hp, List.mem_cons, ih]
    by_cases hcp : c = p
    · simp only [hcp, true_or, true_iff]
      exact .refl
    · simp [hcp]

theorem getLast?_ancestors {n : Nat} (hn : n < t.size) :
    (n :: t.ancestors n).getLast? = some t.root := by
  fun_induction ancestors t n with
  | case1 n hp => rw [h.parent_eq_none n hn hp, List.getLast?_singleton]
  | case2 n p hp ih => rw [List.getLast?_cons_cons, ih (lt_parent hp).2]

theorem count_children {n : Nat} (hn : n < t.size) (hne : n ≠ t.root) :
    ∃ p, t.parent? n = some p ∧ (t.children p).count n = 1 ∧ ∀ q, q ≠ p → n ∉ t.children q := by
  obtain ⟨p, hp⟩ := Option.ne_none_iff_exists'.mp fun hnone => hne (h.parent_eq_none n hn hnone)
  have hmem : n ∈ t.children p := (h.mem_children_iff p n).mpr hp
  refine ⟨p, hp, List.count_eq_one_of_mem (h.nodup_children p) hmem, ?_⟩
  exact fun q hq hqn => hq (h.branching.parent_unique q p n hqn hmem)

theorem find?_ancestors_iff {q : Nat → Bool} {n c : Nat} :
    (t.ancestors n).find? q = some c ↔ t.Innermost (fun d => q d = true) n c := by
  fun_induction ancestors t n with
  | case1 n hp =>
    simp only [List.find?_nil, reduceCtorEq, false_iff]
    intro hc
    rcases hc.above.eq_or_parent h with hcn | ⟨p, hp', _⟩
    · exact hc.ne hcn
    · rw [hp] at hp'
      cases hp'
  | case2 n p hp ih =>
    rw [h.innermost_iff_of_parent hp, List.find?_cons]
    cases hq : q p with
    | true =>
      simp only [Option.some.injEq, true_and, not_true_eq_false, false_and, or_false]
      exact eq_comm
    | false => simp [ih]

theorem enclosingClass?_iff {n c : Nat} :
    t.enclosingClass? n = some c ↔ t.Innermost (fun d => t.kind d = .classDecl) n c := by
  rw [enclosingClass?, h.find?_ancestors_iff]
  simp only [beq_iff_eq]

theorem nodup_walkPruned (prune : Nat → Bool) (start : Nat) :
    (t.walkPruned prune start).Nodup :=
  h.branching.nodup_walkPruned prune start

end Rooted

/-- A walk comes to the nodes below its start for which every node on the way is entered. -/
theorem Branching.leads_iff (h : t.Branching) {enter : Nat → Bool} {s n : Nat} :
    t.Leads enter s n ↔
      t.Under s n ∧ ∀ x, t.Under s x → t.Under x n → x ≠ n → enter x = true := by
  constructor
  · intro hl
    refine ⟨hl.under, ?_⟩
    induction hl with
    | refl =>
      intro x hsx hxs hne
      have := Under.le hsx
      have := Under.le hxs
      omega
    | @tail b c _ hstep ih =>
      intro x hsx hxc hne
      have hxb := (h.under_and_ne_iff hstep.2).mp ⟨hxc, hne⟩
      by_cases hx : x = b
      · exact hx ▸ hstep.1
      · exact ih x hsx hxb hx
  · rintro ⟨hu, henter⟩
    induction hu with
    | refl => exact .refl
    | @tail b c hsb hbc ih =>
      -- What lies above `b` lies strictly above its child.
      have habove {x : Nat} (hx : t.Under x b) := (h.under_and_ne_iff hbc).mpr hx
      refine (ih fun x hsx hxb _ => ?_).tail ⟨?_, hbc⟩
      · exact henter x hsx (habove hxb).1 (habove hxb).2
      · exact henter b hsb (habove .refl).1 (habove .refl).2

end CoroutineCheck.Tree

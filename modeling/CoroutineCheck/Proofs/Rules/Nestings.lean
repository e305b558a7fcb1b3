import CoroutineCheck.Proofs.Rules.Chains
import CoroutineCheck.Proofs.Tree.Additions
/-!
# Chains and nesting

The operands of a chain are the greatest subterms that are no operation with its operator, from left to
right. How the operations are nested over them makes no difference: two expressions with the same leaves
have operands with the same texts, and are written alike, also without the operands at some positions.
-/
namespace CoroutineCheck

namespace Tree

variable {t : Tree} {op : String}

/-! ## Maximal subterms -/

/-- A node that is the first one, or a part of it, or a part of a part, and so on. -/
def Subterm (t : Tree) : (top node : Nat) → Prop :=
  Relation.ReflTransGen fun p c => c ∈ (t.shape p).parts

/-- A subterm that is no operation with `op` and lies only in operations with it. -/
structure IsMaximal (t : Tree) (op : String) (top node : Nat) : Prop where
  subterm : t.Subterm top node
  not_operation : ¬ t.IsOperation op node
  inside : ∀ m, t.Subterm top m → t.Subterm m node → m ≠ node → t.IsOperation op m

theorem Subterm.le {top n : Nat} (h : t.Subterm top n) : n ≤ top := by
  induction h with
  | refl => exact Nat.le_refl _
  | tail _ hc ih => exact Nat.le_trans (Nat.le_of_lt (parts_lt hc)) ih

private theorem mem_parts_of_side {p lhs rhs c : Nat} (hshape : t.shape p = .binary op lhs rhs)
    (hc : c = lhs ∨ c = rhs) : c ∈ (t.shape p).parts := by
  rw [hshape]
  simpa [Shape.parts] using hc

private theorem Joins.subterm {top n : Nat} (h : t.Joins op top n) : t.Subterm top n := by
  induction h with
  | refl => exact .refl
  | tail _ hstep ih =>
    obtain ⟨lhs, rhs, hshape, hc⟩ := hstep
    exact ih.tail (mem_parts_of_side hshape hc)

theorem Subterm.joins {top n : Nat} (h : t.Subterm top n)
    (hinside : ∀ m, t.Subterm top m → t.Subterm m n → m ≠ n → t.IsOperation op m) :
    t.Joins op top n := by
  induction h using Relation.ReflTransGen.head_induction_on with
  | refl => exact .refl
  | @head top c hc hcn ih =>
    have hne : top ≠ n := by
      have hlt := parts_lt hc
      have hle := Subterm.le hcn
      omega
    -- The top itself is an operation, so the part that leads on is one of its sides.
    obtain ⟨lhs, rhs, hshape⟩ := hinside top .refl (.head hc hcn) hne
    have hside : c = lhs ∨ c = rhs := by
      rw [hshape] at hc
      simpa [Shape.parts] using hc
    exact .head ⟨lhs, rhs, hshape, hside⟩ (ih fun m hm => hinside m (.head hc hm))

private theorem Branching.isOperation_of_joins (h : t.Branching) {top n : Nat} (hn : t.Joins op top n)
    {m : Nat} (htop : t.Subterm top m) (hm : t.Subterm m n) (hne : m ≠ n) : t.IsOperation op m := by
  induction hn with
  | refl =>
    have hle := Subterm.le htop
    have hle' := Subterm.le hm
    omega
  | @tail b c _ hstep ih =>
    obtain ⟨lhs, rhs, hshape, hside⟩ := hstep
    rcases Relation.ReflTransGen.cases_tail hm with hmc | ⟨q, hq, hqc⟩
    · exact absurd hmc.symm hne
    · -- The side `c` has one parent, so the way from `m` to it leads through `b`.
      have hqb : q = b := h.parent_unique q b c (mem_children_of_mem_parts hqc)
        (mem_children_of_mem_parts (mem_parts_of_side hshape hside))
      subst hqb
      by_cases hmq : m = q
      · exact hmq ▸ ⟨lhs, rhs, hshape⟩
      · exact ih hq hmq

private theorem Branching.isOperand_iff_isMaximal (h : t.Branching) {top o : Nat} :
    t.IsOperand op top o ↔ t.IsMaximal op top o := by
  constructor
  · intro ho
    exact ⟨ho.joins.subterm, ho.not_operation, fun m htop hm => h.isOperation_of_joins ho.joins htop hm⟩
  · intro ho
    exact ⟨ho.subterm.joins ho.inside, ho.not_operation⟩

/-! ## From left to right -/

/-- The first node is an operand on the left of a joined operation, the second one on the right of it. -/
def LeftOf (t : Tree) (op : String) (top x y : Nat) : Prop :=
  ∃ p lhs rhs, t.Joins op top p ∧ t.shape p = .binary op lhs rhs ∧
    t.IsOperand op lhs x ∧ t.IsOperand op rhs y

theorem LeftOf.head {top p x y : Nat} (hp : t.Joins op top p) (h : t.LeftOf op p x y) :
    t.LeftOf op top x y := by
  obtain ⟨q, lhs, rhs, hq, hsides⟩ := h
  exact ⟨q, lhs, rhs, hp.trans hq, hsides⟩

private theorem operands_leftOf (t : Tree) (op : String) (id : Nat) :
    (t.operands op id).Pairwise (t.LeftOf op id) := by
  induction id using operands_induction t op with
  | operation id lhs rhs hshape ihl ihr =>
    have hleft : t.Joins op id lhs := .single ⟨lhs, rhs, hshape, .inl rfl⟩
    have hright : t.Joins op id rhs := .single ⟨lhs, rhs, hshape, .inr rfl⟩
    rw [operands_of_operation hshape]
    refine List.pairwise_append.mpr ⟨ihl.imp (.head hleft), ihr.imp (.head hright), ?_⟩
    intro x hx y hy
    exact ⟨id, lhs, rhs, .refl, hshape, mem_operands_iff.mp hx, mem_operands_iff.mp hy⟩
  | leaf id hleaf =>
    rw [operands_of_not_operation hleaf]
    exact List.pairwise_singleton _ _

private theorem Branching.nodup_operands (h : t.Branching) (hparts : ∀ id, (t.shape id).parts.Nodup)
    (id : Nat) :
    (t.operands op id).Nodup := by
  apply (h.operands_apart hparts id).imp
  rintro x _ hxy rfl
  exact hxy x .refl .refl

end Tree

/-! ## Nestings -/

inductive Nesting where
  | leaf (id : Nat)
  | join (lhs rhs : Nesting)

def Nesting.leaves : Nesting → List Nat
  | leaf id => [id]
  | join lhs rhs => lhs.leaves ++ rhs.leaves

namespace Tree

/-- A node is nested in this way by operations with `op`. -/
inductive NestsAs (t : Tree) (op : String) : Nat → Nesting → Prop where
  | leaf {id : Nat} : ¬ t.IsOperation op id → NestsAs t op id (.leaf id)
  | join {id lhs rhs : Nat} {l r : Nesting} : t.shape id = .binary op lhs rhs → NestsAs t op lhs l →
      NestsAs t op rhs r → NestsAs t op id (.join l r)

variable {t : Tree} {op : String}

private theorem exists_nestsAs (t : Tree) (op : String) (id : Nat) : ∃ e, t.NestsAs op id e := by
  induction id using operands_induction t op with
  | operation id lhs rhs hshape ihl ihr =>
    obtain ⟨l, hl⟩ := ihl
    obtain ⟨r, hr⟩ := ihr
    exact ⟨.join l r, .join hshape hl hr⟩
  | leaf id hleaf => exact ⟨.leaf id, .leaf hleaf⟩

theorem NestsAs.operands_eq {id : Nat} {e : Nesting} (h : t.NestsAs op id e) :
    t.operands op id = e.leaves := by
  induction h with
  | leaf hleaf => exact operands_of_not_operation hleaf
  | join hshape _ _ ihl ihr => rw [operands_of_operation hshape, ihl, ihr, Nesting.leaves]

private theorem NestsAs.isOperation {id : Nat} {e : Nesting} (h : t.NestsAs op id e)
    (hlength : 1 < e.leaves.length) : t.IsOperation op id := by
  cases h with
  | leaf => simp [Nesting.leaves] at hlength
  | join hshape => exact ⟨_, _, hshape⟩

end Tree

namespace Chain

variable {c c' : Chain} {t t' : Tree}

private theorem render_congr (hop : c.op = c'.op)
    (htexts : c.operands.map t.text = c'.operands.map t'.text) : c.render t = c'.render t' := by
  have htrim : c.operands.map (fun id => Text.trim (t.text id)) =
      c'.operands.map (fun id => Text.trim (t'.text id)) := by
    have := congrArg (List.map Text.trim) htexts
    rwa [List.map_map, List.map_map] at this
  rw [render, render, hop, htrim]

private theorem length_eq_of_map_eq {α : Type} {xs ys : List Nat} {f g : Nat → α}
    (h : xs.map f = ys.map g) : xs.length = ys.length := by
  have := congrArg List.length h
  rwa [List.length_map, List.length_map] at this

private theorem map_filter_congr {xs ys : List Nat} {f g : Nat → List Char} {p q : Nat → Bool}
    (hf : xs.map f = ys.map g) (hp : xs.map p = ys.map q) :
    (xs.filter p).map f = (ys.filter q).map g := by
  induction xs generalizing ys with
  | nil =>
    rw [List.map_nil, eq_comm, List.map_eq_nil_iff] at hf
    rw [hf]
    rfl
  | cons x xs ih =>
    cases ys with
    | nil => simp at hf
    | cons y ys =>
      rw [List.map_cons, List.map_cons, List.cons.injEq] at hf hp
      have hrest := ih hf.2 hp.2
      rw [List.filter_cons, List.filter_cons, hp.1]
      split
      · rw [List.map_cons, List.map_cons, hf.1, hrest]
      · exact hrest

/-- The predicate removes the operands at the given positions. -/
def Decides (c : Chain) (remove : Nat → Bool) (position : Nat → Bool) : Prop :=
  ∀ i n, c.operands[i]? = some n → remove n = position i

private theorem exists_decides (h : c.operands.Nodup) (position : Nat → Bool) :
    ∃ remove, c.Decides remove position := by
  refine ⟨fun n => position (c.operands.idxOf n), fun i n hn => ?_⟩
  obtain ⟨hi, rfl⟩ := List.getElem?_eq_some_iff.mp hn
  exact congrArg position (h.idxOf_getElem i hi)

private theorem Decides.map_eq {remove remove' position : Nat → Bool} (h : c.Decides remove position)
    (h' : c'.Decides remove' position) (htexts : c.operands.map t.text = c'.operands.map t'.text) :
    c.operands.map remove = c'.operands.map remove' := by
  have hlength := length_eq_of_map_eq htexts
  refine List.ext_getElem (by rw [List.length_map, List.length_map, hlength]) fun i hi hi' => ?_
  rw [List.length_map] at hi hi'
  rw [List.getElem_map, List.getElem_map, h i _ (List.getElem?_eq_getElem hi),
    h' i _ (List.getElem?_eq_getElem hi')]

/-- Chains with the same texts are written alike without the operands at the same positions, or neither
of them can go without. -/
private theorem render_without?_congr {remove remove' : Nat → Bool} (hop : c.op = c'.op)
    (htexts : c.operands.map t.text = c'.operands.map t'.text)
    (hremove : c.operands.map remove = c'.operands.map remove') :
    (c.without? remove).map (·.render t) = (c'.without? remove').map (·.render t') := by
  have hkeep : c.operands.map (!remove ·) = c'.operands.map (!remove' ·) := by
    have := congrArg (List.map not) hremove
    rwa [List.map_map, List.map_map] at this
  have hrest := map_filter_congr htexts hkeep
  have hrestLength := length_eq_of_map_eq hrest
  have hempty : (c.operands.filter (!remove ·)).isEmpty = (c'.operands.filter (!remove' ·)).isEmpty := by
    have := congrArg List.isEmpty hrest
    rwa [List.isEmpty_map, List.isEmpty_map] at this
  simp only [without?, hempty, hrestLength, length_eq_of_map_eq htexts]
  split
  · rfl
  · exact congrArg some (render_congr hop hrest)

end Chain

/-- The operands of a chain are the maximal subterms that are no operation with its operator, from left to
right: at least two, with no node in common, and one after the other in the source if the sides of the
operations are. An expression that is nested in another way over leaves with the same texts has a chain
with the same texts too. Both are written alike, also without the operands at the same positions. -/
theorem Tree.chain?_of_nesting {t : Tree} (h : t.Branching) (hparts : ∀ id, (t.shape id).parts.Nodup)
    {op : String} {id : Nat} {c : Chain} (hc : t.chain? op id = some c) :
    (∀ o, o ∈ c.operands ↔ t.IsMaximal op id o) ∧
    c.operands.Pairwise (t.LeftOf op id) ∧
    2 ≤ c.operands.length ∧
    c.operands.Pairwise (fun x y => ∀ n, t.Under x n → ¬ t.Under y n) ∧
    (t.Nested → (∀ p lhs rhs, t.shape p = .binary op lhs rhs →
        (t.span lhs).stop ≤ (t.span rhs).start) →
      c.operands.Pairwise fun x y => (t.span x).stop ≤ (t.span y).start) ∧
    (∀ position, ∃ remove, c.Decides remove position) ∧
    ∃ e, t.NestsAs op id e ∧ c.operands = e.leaves ∧
      ∀ (t' : Tree) (id' : Nat) (e' : Nesting), t'.NestsAs op id' e' →
        e.leaves.map t.text = e'.leaves.map t'.text →
        ∃ c', t'.chain? op id' = some c' ∧ c'.operands = e'.leaves ∧
          c.operands.map t.text = c'.operands.map t'.text ∧ c.render t = c'.render t' ∧
          ∀ position remove remove', c.Decides remove position → c'.Decides remove' position →
            (c.without? remove).map (·.render t) = (c'.without? remove').map (·.render t') := by
  obtain ⟨hop, rfl⟩ := chain?_eq_some_iff.mp hc
  have hlength := one_lt_length_operands hop
  refine ⟨fun o => mem_operands_iff.trans h.isOperand_iff_isMaximal, t.operands_leftOf op id, hlength,
    h.operands_apart hparts id, fun hnested hsides => hnested.operands_in_order hsides id,
    Chain.exists_decides (h.nodup_operands hparts id), ?_⟩
  obtain ⟨e, he⟩ := t.exists_nestsAs op id
  refine ⟨e, he, he.operands_eq, fun t' id' e' he' hleaves => ?_⟩
  have htexts : (t.operands op id).map t.text = (t'.operands op id').map t'.text := by
    rw [he.operands_eq, he'.operands_eq, hleaves]
  -- As many texts as there are means two or more, so the other node is an operation too.
  have hop' : t'.IsOperation op id' := by
    apply he'.isOperation
    rwa [← he'.operands_eq, ← Chain.length_eq_of_map_eq htexts]
  refine ⟨_, chain?_eq_some_iff.mpr ⟨hop', rfl⟩, he'.operands_eq, htexts, Chain.render_congr rfl htexts, ?_⟩
  intro position remove remove' hremove hremove'
  exact Chain.render_without?_congr rfl htexts (hremove.map_eq hremove' htexts)

/-- `a + (b + c) + d * e` up to the operations with `+` outside of parentheses. -/
def Addition.threeTerms : List Addition :=
  [⟨.identifier "a", ⟨0, 1⟩, []⟩, ⟨.identifier "b", ⟨5, 6⟩, []⟩, ⟨.identifier "c", ⟨9, 10⟩, []⟩,
    ⟨.binary "+" 1 2, ⟨5, 10⟩, []⟩, ⟨.parenthesized 3, ⟨4, 11⟩, []⟩, ⟨.identifier "d", ⟨14, 15⟩, []⟩,
    ⟨.identifier "e", ⟨18, 19⟩, []⟩, ⟨.binary "*" 5 6, ⟨14, 19⟩, []⟩]

def Addition.leftNested : List Addition :=
  threeTerms ++ [⟨.binary "+" 0 4, ⟨0, 11⟩, []⟩, ⟨.binary "+" 8 7, ⟨0, 19⟩, []⟩]

def Addition.rightNested : List Addition :=
  threeTerms ++ [⟨.binary "+" 4 7, ⟨4, 19⟩, []⟩, ⟨.binary "+" 0 8, ⟨0, 19⟩, []⟩]

def Tree.threeTermsTree (xs : List Addition) : Tree :=
  (Arena.empty.addAll xs).finishWithRoot "a + (b + c) + d * e" "file"

theorem Tree.chain?_of_nesting_threeTerms :
    (threeTermsTree Addition.leftNested).Branching ∧
    (∀ id, ((threeTermsTree Addition.leftNested).shape id).parts.Nodup) ∧
    (threeTermsTree Addition.leftNested).chain? "+" 9 = some ⟨"+", ⟨0, 19⟩, [0, 4, 7]⟩ ∧
    (threeTermsTree Addition.rightNested).NestsAs "+" 9
      (.join (.leaf 0) (.join (.leaf 4) (.leaf 7))) ∧
    ∃ c', (threeTermsTree Addition.rightNested).chain? "+" 9 = some c' ∧
      c'.render (threeTermsTree Addition.rightNested) = "a + (b + c) + d * e" ∧
      (c'.without? (· == 4)).map (·.render (threeTermsTree Addition.rightNested)) =
        some "a + d * e" := by
  have horderly : Addition.Orderly Addition.leftNested := ⟨by decide, by decide, by decide⟩
  have hbranching := (horderly.rooted "a + (b + c) + d * e" "file").branching
  have hparts := horderly.nodup_parts "a + (b + c) + d * e" "file"
  have hc : (threeTermsTree Addition.leftNested).chain? "+" 9 = some ⟨"+", ⟨0, 19⟩, [0, 4, 7]⟩ := by
    decide +kernel
  have hleaf {n : Nat} (hn : (threeTermsTree Addition.rightNested).chain? "+" n = none) :
      (threeTermsTree Addition.rightNested).NestsAs "+" n (.leaf n) :=
    .leaf fun hop => by
      rw [chain?_eq_some_iff.mpr ⟨hop, rfl⟩] at hn
      cases hn
  have houter : (threeTermsTree Addition.rightNested).shape 9 = .binary "+" 0 8 := by decide +kernel
  have hinner : (threeTermsTree Addition.rightNested).shape 8 = .binary "+" 4 7 := by decide +kernel
  have hnests : (threeTermsTree Addition.rightNested).NestsAs "+" 9
      (.join (.leaf 0) (.join (.leaf 4) (.leaf 7))) :=
    .join houter (hleaf (by decide +kernel))
      (.join hinner (hleaf (by decide +kernel)) (hleaf (by decide +kernel)))
  obtain ⟨_, _, _, _, _, _, e, _, hleaves, hsame⟩ := chain?_of_nesting hbranching hparts hc
  obtain ⟨c', hc', hoperands, _, hrender, hwithout⟩ := hsame _ 9 _ hnests (by
    rw [← hleaves]
    decide +kernel)
  have hmiddle {d : Chain} (hd : d.operands = [0, 4, 7]) : d.Decides (· == 4) (· == 1) := by
    intro i n hn
    rw [hd] at hn
    rcases i with _ | _ | _ | i <;> cases hn <;> rfl
  refine ⟨hbranching, hparts, hc, hnests, c', hc', ?_, ?_⟩
  · rw [← hrender]
    decide +kernel
  · rw [← hwithout (· == 1) (· == 4) (· == 4) (hmiddle rfl) (hmiddle hoperands)]
    decide +kernel

end CoroutineCheck

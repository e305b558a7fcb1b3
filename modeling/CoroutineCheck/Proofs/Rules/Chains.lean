import CoroutineCheck.Proofs.Rules.Bodies
/-!
# Chains without one operand

The operands of a chain are the nodes that its operations lead to and that are no such operation
themselves, from left to right. In a rooted tree they have no node in common, so a call stands in at
most one of them; removing it takes exactly one operand away, and the others are written again with
one operator between any two.
-/
namespace CoroutineCheck

namespace Tree

variable {t : Tree} {op : String}

/-- The second node is the first without some of the parentheses around it. -/
def Wraps (t : Tree) : (outer inner : Nat) → Prop :=
  Relation.ReflTransGen fun p c => t.shape p = .parenthesized c

def IsOperation (t : Tree) (op : String) (id : Nat) : Prop :=
  ∃ lhs rhs, t.shape id = .binary op lhs rhs

/-- A node that is the first one or a side of an operation that the first one leads to. -/
def Joins (t : Tree) (op : String) : (top node : Nat) → Prop :=
  Relation.ReflTransGen fun p c => ∃ lhs rhs, t.shape p = .binary op lhs rhs ∧ (c = lhs ∨ c = rhs)

/-- A side of one of the joined operations that is none of them. -/
structure IsOperand (t : Tree) (op : String) (top node : Nat) : Prop where
  joins : t.Joins op top node
  not_operation : ¬ t.IsOperation op node

theorem mem_children_of_mem_parts {id c : Nat} (h : c ∈ (t.shape id).parts) : c ∈ t.children id :=
  Arena.parts_subset h

theorem Wraps.under {outer inner : Nat} (h : t.Wraps outer inner) : t.Under outer inner := by
  induction h with
  | refl => exact .refl
  | tail _ hstep ih => exact ih.trans (under_of_mem_parts (by simp [hstep, Shape.parts]))

private theorem wraps_stripParens (t : Tree) (id : Nat) : t.Wraps id (t.stripParens id) := by
  fun_induction stripParens t id with
  | case1 id inner h ih => exact .head h ih
  | case2 => exact .refl

private theorem stripParens_eq_iff {id inner : Nat} (hinner : t.kind inner ≠ .parenthesized) :
    t.stripParens id = inner ↔ t.Wraps id inner := by
  constructor
  · intro h
    exact h ▸ t.wraps_stripParens id
  · intro h
    induction h using Relation.ReflTransGen.head_induction_on with
    | refl =>
      rw [stripParens]
      split
      case h_1 hshape => exact absurd (by rw [kind, hshape]; rfl) hinner
      case h_2 => rfl
    | head hstep _ ih =>
      rw [stripParens]
      split
      case h_1 hshape =>
        rw [hstep] at hshape
        cases hshape
        exact ih
      case h_2 hother => exact absurd hstep (hother _)

/-! ## Operands -/

theorem operands_of_operation {id lhs rhs : Nat} (h : t.shape id = .binary op lhs rhs) :
    t.operands op id = t.operands op lhs ++ t.operands op rhs := by
  rw [operands]
  split
  case h_1 hshape =>
    rw [h] at hshape
    cases hshape
    rw [if_pos (beq_self_eq_true op)]
  case h_2 hother => exact absurd h (hother op lhs rhs)

theorem operands_of_not_operation {id : Nat} (h : ¬ t.IsOperation op id) :
    t.operands op id = [id] := by
  rw [operands]
  split
  case h_1 found lhs rhs hshape =>
    refine if_neg fun hfound => h ?_
    rw [beq_iff_eq] at hfound
    exact ⟨lhs, rhs, hfound ▸ hshape⟩
  case h_2 => rfl

theorem operands_induction (t : Tree) (op : String) {motive : Nat → Prop}
    (operation : ∀ id lhs rhs, t.shape id = .binary op lhs rhs → motive lhs → motive rhs → motive id)
    (leaf : ∀ id, ¬ t.IsOperation op id → motive id) (id : Nat) : motive id := by
  induction id using Nat.strongRecOn with
  | ind id ih =>
    by_cases h : t.IsOperation op id
    · obtain ⟨lhs, rhs, hshape⟩ := h
      refine operation id lhs rhs hshape (ih lhs ?_) (ih rhs ?_)
      · exact parts_lt (t := t) (by simp [hshape, Shape.parts])
      · exact parts_lt (t := t) (by simp [hshape, Shape.parts])
    · exact leaf id h

theorem mem_operands_iff {id o : Nat} : o ∈ t.operands op id ↔ t.IsOperand op id o := by
  induction id using operands_induction t op with
  | operation id lhs rhs hshape ihl ihr =>
    rw [operands_of_operation hshape, List.mem_append, ihl, ihr]
    constructor
    · rintro (h | h)
      · exact ⟨.head ⟨lhs, rhs, hshape, .inl rfl⟩ h.joins, h.not_operation⟩
      · exact ⟨.head ⟨lhs, rhs, hshape, .inr rfl⟩ h.joins, h.not_operation⟩
    · intro h
      rcases Relation.ReflTransGen.cases_head h.joins with rfl | ⟨c, ⟨l, r, hlr, hc⟩, hjoins⟩
      · exact absurd ⟨lhs, rhs, hshape⟩ h.not_operation
      · rw [hshape] at hlr
        cases hlr
        rcases hc with rfl | rfl
        · exact .inl ⟨hjoins, h.not_operation⟩
        · exact .inr ⟨hjoins, h.not_operation⟩
  | leaf id hleaf =>
    rw [operands_of_not_operation hleaf, List.mem_singleton]
    constructor
    · rintro rfl
      exact ⟨.refl, hleaf⟩
    · intro h
      rcases Relation.ReflTransGen.cases_head h.joins with rfl | ⟨c, ⟨l, r, hlr, _⟩, _⟩
      · rfl
      · exact absurd ⟨l, r, hlr⟩ hleaf

private theorem under_of_mem_operands {id o : Nat} (h : o ∈ t.operands op id) : t.Under id o := by
  have hjoins := (mem_operands_iff.mp h).joins
  clear h
  induction hjoins with
  | refl => exact .refl
  | tail _ hstep ih =>
    obtain ⟨lhs, rhs, hshape, hc⟩ := hstep
    refine ih.trans (under_of_mem_parts ?_)
    rcases hc with rfl | rfl <;> simp [hshape, Shape.parts]

private theorem operands_ne_nil (t : Tree) (op : String) (id : Nat) : t.operands op id ≠ [] := by
  induction id using operands_induction t op with
  | operation id lhs rhs hshape ihl _ =>
    rw [operands_of_operation hshape]
    exact List.append_ne_nil_of_left_ne_nil ihl _
  | leaf id hleaf =>
    rw [operands_of_not_operation hleaf]
    exact List.cons_ne_nil _ _

theorem one_lt_length_operands {id : Nat} (h : t.IsOperation op id) :
    1 < (t.operands op id).length := by
  obtain ⟨lhs, rhs, hshape⟩ := h
  have hl := List.length_pos_iff.mpr (t.operands_ne_nil op lhs)
  have hr := List.length_pos_iff.mpr (t.operands_ne_nil op rhs)
  rw [operands_of_operation hshape, List.length_append]
  omega

theorem Branching.operands_apart (h : t.Branching) (hparts : ∀ id, (t.shape id).parts.Nodup) (id : Nat) :
    (t.operands op id).Pairwise fun x y => ∀ n, t.Under x n → ¬ t.Under y n := by
  induction id using operands_induction t op with
  | operation id lhs rhs hshape ihl ihr =>
    have hpart := hparts id
    rw [hshape] at hpart
    have hne : lhs ≠ rhs := by
      simp only [Shape.parts, List.nodup_cons, List.mem_singleton] at hpart
      exact hpart.1
    have hl : lhs ∈ t.children id := mem_children_of_mem_parts (by simp [hshape, Shape.parts])
    have hr : rhs ∈ t.children id := mem_children_of_mem_parts (by simp [hshape, Shape.parts])
    rw [operands_of_operation hshape]
    refine List.pairwise_append.mpr ⟨ihl, ihr, ?_⟩
    intro x hx y hy n hxn hyn
    exact h.children_apart hl hr hne ((under_of_mem_operands hx).trans hxn)
      ((under_of_mem_operands hy).trans hyn)
  | leaf id hleaf =>
    rw [operands_of_not_operation hleaf]
    exact List.pairwise_singleton _ _

/-- Operands follow one another in the source where the sides of every operation do. -/
theorem Nested.operands_in_order (h : t.Nested)
    (hsides : ∀ id lhs rhs, t.shape id = .binary op lhs rhs → (t.span lhs).stop ≤ (t.span rhs).start)
    (id : Nat) :
    (t.operands op id).Pairwise fun x y => (t.span x).stop ≤ (t.span y).start := by
  induction id using operands_induction t op with
  | operation id lhs rhs hshape ihl ihr =>
    rw [operands_of_operation hshape]
    refine List.pairwise_append.mpr ⟨ihl, ihr, ?_⟩
    intro x hx y hy
    have hx' := Span.contains_iff.mp (h.contains_under (under_of_mem_operands hx))
    have hy' := Span.contains_iff.mp (h.contains_under (under_of_mem_operands hy))
    have hside := hsides id lhs rhs hshape
    omega
  | leaf id hleaf =>
    rw [operands_of_not_operation hleaf]
    exact List.pairwise_singleton _ _

theorem chain?_eq_some_iff {id : Nat} {c : Chain} :
    t.chain? op id = some c ↔ t.IsOperation op id ∧ c = ⟨op, t.span id, t.operands op id⟩ := by
  unfold chain? IsOperation
  split
  case h_1 found lhs rhs hshape =>
    by_cases hfound : found = op
    · subst hfound
      simp [hshape, eq_comm]
    · simp [hshape, hfound]
  case h_2 hother =>
    simp only [reduceCtorEq, false_iff, not_and]
    rintro ⟨lhs, rhs, hshape⟩
    exact absurd hshape (hother op lhs rhs)

end Tree

private theorem Chain.without?_eq_some_iff {c d : Chain} {remove : Nat → Bool} :
    c.without? remove = some d ↔
      (∃ o ∈ c.operands, remove o = true) ∧ (∃ o ∈ c.operands, remove o = false) ∧
        d = { c with operands := c.operands.filter (!remove ·) } := by
  have hempty : (c.operands.filter (!remove ·)).isEmpty = false ↔
      ∃ o ∈ c.operands, remove o = false := by
    rw [← Bool.not_eq_true, List.isEmpty_iff, List.filter_eq_nil_iff]
    simp
  have hsame : ((c.operands.filter (!remove ·)).length == c.operands.length) = false ↔
      ∃ o ∈ c.operands, remove o = true := by
    rw [beq_eq_false_iff_ne, Ne, List.length_filter_eq_length_iff]
    simp
  unfold without?
  simp only
  split
  case isTrue h =>
    simp only [reduceCtorEq, false_iff, not_and]
    intro hsome hkept
    rw [← hempty] at hkept
    rw [← hsame] at hsome
    rw [hkept, hsome] at h
    cases h
  case isFalse h =>
    rw [Bool.not_eq_true, Bool.or_eq_false_iff, hempty, hsame] at h
    rw [Option.some.injEq]
    exact ⟨fun hd => ⟨h.2, h.1, hd.symm⟩, fun hd => hd.2.2.symm⟩

namespace Kotlin

open Outline

theorem Outline.StandsFor.parts_nodup {P : Outline → Prop} {c : Arena} {i : Nat}
    (h : StandsFor P c i) : (c.node i).shape.parts.Nodup := by
  cases h with
  | @intro o a b xs extra span shape _ _ _ hids hlays hnodes =>
    have hgrows := hlays.placed.grows
    obtain ⟨p, hself⟩ := hnodes b.size (Nat.le_refl _)
    rw [hself, Arena.node_add_self (hgrows.childrenOf_lt hids)]
    have hnodup : (shape.parts ++ extra).Nodup :=
      hids ▸ hgrows.tops_increasing.imp fun hxy => Nat.ne_of_lt hxy
    exact (List.nodup_append.mp hnodup).1

private theorem layout_parts_nodup (source : String) (root : Row) (id : Nat) :
    ((layout source root).tree.shape id).parts.Nodup := by
  have hany : (fileOutline source.toList root).Everywhere fun _ => True :=
    everywhere_fileOutline trivial trivial fun row _ =>
      (carries_singleOperands source.toList row).here.outline.imp fun _ _ => trivial
  by_cases hid : id < (layout source root).tree.size
  · exact (layout_standsFor source root hany hid).parts_nodup
  · rw [Tree.shape, Tree.node, Arena.node_of_size_le (Nat.not_lt.mp hid)]
    exact .nil

end Kotlin

namespace JobInBuilderUsage

def sumText (t : Tree) (nodes : List Nat) : List Char :=
  " + ".toList.intercalate (nodes.map fun n => Text.trim (t.text n))

private theorem sumText_cons (t : Tree) (first : Nat) (rest : List Nat) :
    sumText t (first :: rest) =
      Text.trim (t.text first) ++ rest.flatMap fun n => " + ".toList ++ Text.trim (t.text n) := by
  induction rest generalizing first with
  | nil => rw [sumText, List.map_singleton, List.intercalate_singleton, List.flatMap_nil, List.append_nil]
  | cons n rest ih =>
    have hrest := ih n
    rw [sumText, List.map_cons] at hrest
    rw [sumText, List.map_cons, List.map_cons, List.intercalate_cons_cons, hrest, List.flatMap_cons]
    simp only [List.append_assoc]

private theorem render_plus {c : Chain} (hc : c.op = Chain.plus) (t : Tree) :
    c.render t = String.ofList (sumText t c.operands) := by
  have hsign : " + ".toList = ' ' :: Chain.plus.toList ++ [' '] := by decide +kernel
  rw [Chain.render, hc, sumText, hsign]

variable {f : SourceFile} {context s : Nat}

private theorem operandRemoval?_eq_some_iff (hs : f.tree.kind s ≠ .parenthesized) {fix : Fix} :
    operandRemoval? f context s = some fix ↔
      ∃ top, f.tree.Wraps context top ∧ f.tree.IsOperation Chain.plus top ∧
        (∃ o ∈ f.tree.operands Chain.plus top, f.tree.Wraps o s) ∧
        (∃ o ∈ f.tree.operands Chain.plus top, ¬ f.tree.Wraps o s) ∧
        fix = Fix.replace "Remove SupervisorJob function call" (f.tree.span top)
          (String.ofList (sumText f.tree ((f.tree.operands Chain.plus top).filter
            fun n => !(f.tree.stripParens n == s)))) := by
  have hremove {n : Nat} : (f.tree.stripParens n == s) = true ↔ f.tree.Wraps n s := by
    rw [beq_iff_eq, Tree.stripParens_eq_iff hs]
  have hkeep {n : Nat} : (f.tree.stripParens n == s) = false ↔ ¬ f.tree.Wraps n s := by
    rw [← Bool.not_eq_true, hremove]
  simp only [operandRemoval?, bind, Option.bind_eq_some_iff, Tree.chain?_eq_some_iff,
    Chain.without?_eq_some_iff, hremove, hkeep]
  constructor
  · rintro ⟨chain, ⟨hop, rfl⟩, rest, ⟨hgone, hleft, rfl⟩, hfix⟩
    cases hfix
    rw [render_plus rfl]
    exact ⟨_, f.tree.wraps_stripParens context, hop, hgone, hleft, rfl⟩
  · rintro ⟨top, hwraps, hop, hgone, hleft, rfl⟩
    have htop : f.tree.stripParens context = top := by
      refine (Tree.stripParens_eq_iff ?_).mpr hwraps
      obtain ⟨lhs, rhs, hshape⟩ := hop
      rw [Tree.kind, hshape]
      exact fun h => by cases h
    rw [htop]
    refine ⟨_, ⟨hop, rfl⟩, _, ⟨hgone, hleft, rfl⟩, ?_⟩
    rw [render_plus rfl]
    rfl

/-- The operands of a sum where a node stands in one of them. -/
structure OnlyOperand (t : Tree) (top s : Nat) (front : List Nat) (o : Nat) (back : List Nat) : Prop where
  operands_eq : t.operands Chain.plus top = front ++ o :: back
  wraps : t.Wraps o s
  not_wraps : ∀ n ∈ front ++ back, ¬ t.Wraps n s

private theorem exists_onlyOperand {t : Tree} (hr : t.Rooted) (hparts : ∀ id, (t.shape id).parts.Nodup)
    {top o : Nat} (ho : o ∈ t.operands Chain.plus top) (hs : t.Wraps o s) :
    ∃ front back, OnlyOperand t top s front o back := by
  obtain ⟨front, back, hsplit⟩ := List.append_of_mem ho
  refine ⟨front, back, hsplit, hs, ?_⟩
  have hapart : (t.operands Chain.plus top).Pairwise _ := hr.branching.operands_apart hparts top
  rw [hsplit] at hapart
  obtain ⟨_, hback, hfront⟩ := List.pairwise_append.mp hapart
  intro n hn hns
  rcases List.mem_append.mp hn with hn | hn
  · exact hfront n hn o (List.mem_cons_self ..) s hns.under hs.under
  · exact List.rel_of_pairwise_cons hback hn s hs.under hns.under

namespace OnlyOperand

variable {t : Tree} {top o : Nat} {front back : List Nat}

private theorem rest_ne_nil (h : OnlyOperand t top s front o back) (hop : t.IsOperation Chain.plus top) :
    front ++ back ≠ [] := by
  intro hnil
  obtain ⟨rfl, rfl⟩ := List.append_eq_nil_iff.mp hnil
  have hlength := Tree.one_lt_length_operands hop
  rw [h.operands_eq] at hlength
  simp at hlength

private theorem filter_eq (h : OnlyOperand t top s front o back) (hs : t.kind s ≠ .parenthesized) :
    (t.operands Chain.plus top).filter (fun n => !(t.stripParens n == s)) = front ++ back := by
  have hgone : t.stripParens o = s := (Tree.stripParens_eq_iff hs).mpr h.wraps
  have hkept : ∀ n ∈ front ++ back, (!(t.stripParens n == s)) = true := by
    intro n hn
    rw [Bool.not_eq_true', beq_eq_false_iff_ne]
    exact fun heq => h.not_wraps n hn ((Tree.stripParens_eq_iff hs).mp heq)
  rw [h.operands_eq, List.filter_append, List.filter_cons_of_neg (by simp [hgone]),
    ← List.filter_append, List.filter_eq_self.mpr hkept]

end OnlyOperand

private theorem isSome_operandRemoval?_iff (hr : f.tree.Rooted)
    (hparts : ∀ id, (f.tree.shape id).parts.Nodup) (hs : f.tree.kind s ≠ .parenthesized) :
    (operandRemoval? f context s).isSome = true ↔
      ∃ top o, f.tree.Wraps context top ∧ f.tree.IsOperation Chain.plus top ∧
        f.tree.IsOperand Chain.plus top o ∧ f.tree.Wraps o s := by
  rw [Option.isSome_iff_exists]
  simp only [operandRemoval?_eq_some_iff hs, ← Tree.mem_operands_iff]
  constructor
  · rintro ⟨_, top, hwraps, hop, ⟨o, ho, hos⟩, _⟩
    exact ⟨top, o, hwraps, hop, ho, hos⟩
  · rintro ⟨top, o, hwraps, hop, ho, hos⟩
    obtain ⟨front, back, honly⟩ := exists_onlyOperand hr hparts ho hos
    obtain ⟨n, hn⟩ := List.exists_mem_of_ne_nil _ (honly.rest_ne_nil hop)
    refine ⟨_, top, hwraps, hop, ⟨o, ho, hos⟩, ⟨n, ?_, honly.not_wraps n hn⟩, rfl⟩
    rw [honly.operands_eq]
    simp only [List.mem_append, List.mem_cons] at hn ⊢
    exact hn.imp_right .inr

/-- A `SupervisorJob()` found in a context is removed exactly if the context, up to parentheses, is a
sum and the call is an operand of it, up to parentheses. Of the operands, which are listed from left to
right, exactly this one goes; at least one other is left, and the others take the place of the whole sum,
with one sign between any two. -/
theorem operandRemoval_exact (hr : f.tree.Rooted) (hparts : ∀ id, (f.tree.shape id).parts.Nodup)
    (hfound : s ∈ f.nodesWithRole context [.call] .supervisorConstructor) :
    ((operandRemoval? f context s).isSome = true ↔
      ∃ top o, f.tree.Wraps context top ∧ f.tree.IsOperation Chain.plus top ∧
        f.tree.IsOperand Chain.plus top o ∧ f.tree.Wraps o s) ∧
    ∀ fix, operandRemoval? f context s = some fix →
      ∃ top front o back, f.tree.Wraps context top ∧ f.tree.IsOperation Chain.plus top ∧
        f.tree.operands Chain.plus top = front ++ o :: back ∧
        (∀ n, n ∈ front ++ o :: back ↔ f.tree.IsOperand Chain.plus top n) ∧
        f.tree.Wraps o s ∧ (∀ n ∈ front ++ back, ¬ f.tree.Wraps n s) ∧
        fix.edits = [⟨f.tree.span top, String.ofList (sumText f.tree (front ++ back))⟩] ∧
        (∃ first rest, front ++ back = first :: rest ∧
          sumText f.tree (front ++ back) = Text.trim (f.tree.text first) ++
            rest.flatMap fun n => " + ".toList ++ Text.trim (f.tree.text n)) ∧
        (f.tree.Nested → (∀ id lhs rhs, f.tree.shape id = .binary Chain.plus lhs rhs →
            (f.tree.span lhs).stop ≤ (f.tree.span rhs).start) →
          (front ++ o :: back).Pairwise fun x y => (f.tree.span x).stop ≤ (f.tree.span y).start) ∧
        (f.tree.Spaced → ∃ before after, f.content = before ++ (f.tree.text top ++ after) ∧
          Text.byteLength before = (f.tree.span top).start ∧
          fix.apply f.tree.source =
            .ok (String.ofList (before ++ sumText f.tree (front ++ back) ++ after))) := by
  have hs : f.tree.kind s ≠ .parenthesized := by
    have hkind := (List.mem_filter.mp hfound).2
    rw [Bool.and_eq_true, List.contains_iff_mem, List.mem_singleton] at hkind
    simp [hkind.1]
  refine ⟨isSome_operandRemoval?_iff hr hparts hs, ?_⟩
  intro fix hfix
  obtain ⟨top, hwraps, hop, ⟨o, ho, hos⟩, _, rfl⟩ := (operandRemoval?_eq_some_iff hs).mp hfix
  obtain ⟨front, back, honly⟩ := exists_onlyOperand hr hparts ho hos
  rw [honly.filter_eq hs]
  refine ⟨top, front, o, back, hwraps, hop, honly.operands_eq, ?_, hos, honly.not_wraps, rfl,
    ?_, ?_, ?_⟩
  · intro n
    rw [← honly.operands_eq, Tree.mem_operands_iff]
  · obtain ⟨first, rest, hrest⟩ := List.exists_cons_of_ne_nil (honly.rest_ne_nil hop)
    refine ⟨first, rest, hrest, ?_⟩
    rw [hrest, sumText_cons]
  · intro hnested hsides
    rw [← honly.operands_eq]
    exact hnested.operands_in_order hsides top
  · intro hspaced
    obtain ⟨before, after, hsource, hstart, hstop⟩ :=
      Text.slice?_eq_some_iff.mp (Tree.slice?_text hspaced top)
    refine ⟨before, after, hsource, hstart, ?_⟩
    rw [Fix.apply_replace hsource hstart hstop, String.toList_ofList]

def groupedSum : String := "s.launch((é + (SupervisorJob()) + h))"

def groupedSumRows : Kotlin.Row :=
  .over "source_file" 0 38 [.over "call_expression" 0 38 [
    .over "navigation_expression" 0 8 [.over "identifier" 0 1 [], .over "identifier" 2 8 []],
    .over "value_arguments" 8 38 [.over "value_argument" 9 37 [
      .over "parenthesized_expression" 9 37 [.over "binary_expression" 10 36 [
        .over "binary_expression" 10 32 [.over "identifier" 10 12 [], .token "+" 13 14,
          .over "parenthesized_expression" 15 32 [.over "call_expression" 16 31 [
            .over "identifier" 16 29 [], .over "value_arguments" 29 31 []]]],
        .token "+" 33 34, .over "identifier" 35 36 []]]]]]]

def supervisorResolver : Resolver where
  resolve t id := match t.shape id with
    | .call _ callee _ _ =>
      if t.identifier? callee = some "SupervisorJob" then
        some (.named "kotlinx.coroutines.SupervisorJob" .function [])
      else none
    | _ => none
  typeOf _ _ := none

def groupedSumFile : SourceFile :=
  ⟨⟨"sum.kt"⟩, (Kotlin.layout groupedSum groupedSumRows).tree, supervisorResolver, []⟩

theorem operandRemoval_exact_groupedSum :
    groupedSumFile.tree.Rooted ∧ (∀ id, (groupedSumFile.tree.shape id).parts.Nodup) ∧
    4 ∈ groupedSumFile.nodesWithRole 9 [.call] .supervisorConstructor ∧
    ∃ fix, operandRemoval? groupedSumFile 9 4 = some fix ∧
      fix.edits = [⟨⟨10, 36⟩, "é + h"⟩] ∧
      ∃ top front o back, groupedSumFile.tree.operands Chain.plus top = front ++ o :: back ∧
        groupedSumFile.tree.Wraps o 4 ∧
        fix.edits = [⟨groupedSumFile.tree.span top,
          String.ofList (sumText groupedSumFile.tree (front ++ back))⟩] := by
  have hrooted : groupedSumFile.tree.Rooted := Kotlin.layout_rooted groupedSum groupedSumRows
  have hparts := Kotlin.layout_parts_nodup groupedSum groupedSumRows
  have hfound : 4 ∈ groupedSumFile.nodesWithRole 9 [.call] .supervisorConstructor := by
    decide +kernel
  have hfix : operandRemoval? groupedSumFile 9 4 =
      some (Fix.replace "Remove SupervisorJob function call" ⟨10, 36⟩ "é + h") := by
    decide +kernel
  obtain ⟨top, front, o, back, _, _, hsplit, _, hwraps, _, hedits, _⟩ :=
    (operandRemoval_exact hrooted hparts hfound).2 _ hfix
  exact ⟨hrooted, hparts, hfound, _, hfix, rfl, top, front, o, back, hsplit, hwraps, hedits⟩

end JobInBuilderUsage
end CoroutineCheck

import CoroutineCheck.Kotlin.Layout
import CoroutineCheck.Proofs.Tree.Growth
/-!
# Placing outlines

An outline item is either one node over its parts or no more than its parts. `Lays` says what placing
items does to an arena in just these two ways, so that facts about placed trees are proved by an
induction with two steps instead of one for each kind of item. Items whose operands are single nodes
are placed as `Lays` says, one tree for each of their roots.
-/
namespace CoroutineCheck.Kotlin.Outline

/-- The items directly inside an item, in the order in which they are placed. -/
def parts : Outline → List Outline
  | navigation _ receiver selector => [receiver, word selector]
  | call _ receiver callee args trailing =>
    receiver.toList ++ word callee :: (args ++ trailing.toList)
  | argument _ _ value => [value]
  | binary _ _ lhs rhs => [lhs, rhs]
  | parenthesized _ inner => [inner]
  | lambda _ body => body
  | classDecl _ _ body => body
  | wrapper _ _ inner => [inner]
  | group items => items
  | function _ _ body => body
  | binding _ before initializer after => before ++ initializer.toList ++ after
  | _ => []

def nodeSpan? : Outline → Option Span
  | word w => some w.span
  | navigation s _ _ | call s _ _ _ _ | argument s _ _ | binary s _ _ _ | parenthesized s _
  | lambda s _ | classDecl s _ _ | wrapper _ s _ => some s
  | _ => none

def Shapes : Outline → Shape → Prop
  | word w, s => s = .identifier w.text
  | navigation _ _ _, s => ∃ r c, s = .navigation r c
  | call _ receiver _ _ trailing, s =>
    ∃ r c as l, s = .call r c as l ∧ r.isSome = receiver.isSome ∧ l.isSome = trailing.isSome
  | argument _ label _, s => ∃ v, s = .argument label v
  | binary _ op _ _, s => ∃ l r, s = .binary op l r
  | parenthesized _ _, s => ∃ i, s = .parenthesized i
  | lambda _ _, s => s = .lambda
  | classDecl _ info _, s => s = .classDecl info.name
  | wrapper kind _ _, s => s = .other kind
  | _, _ => False

private theorem sizeOf_word_lt (span : Span) (w : Word) {n : Nat} (h : sizeOf w + sizeOf span < n) :
    sizeOf (word w) < n := by
  cases span
  simp only [Span.mk.sizeOf_spec, word.sizeOf_spec] at *
  omega

theorem sizeOf_lt_of_mem_parts {o c : Outline} (hc : c ∈ o.parts) : sizeOf c < sizeOf o := by
  cases o with
  | word | package | imported => simp [parts] at hc
  | argument | parenthesized | wrapper =>
    simp only [parts, List.mem_singleton] at hc
    subst hc
    simp only [argument.sizeOf_spec, parenthesized.sizeOf_spec, wrapper.sizeOf_spec]
    omega
  | navigation span _ selector =>
    simp only [parts, List.mem_cons, List.not_mem_nil, or_false] at hc
    rw [navigation.sizeOf_spec]
    rcases hc with rfl | rfl
    · omega
    · exact sizeOf_word_lt span selector (by omega)
  | binary =>
    simp only [parts, List.mem_cons, List.not_mem_nil, or_false] at hc
    rcases hc with rfl | rfl <;> simp only [binary.sizeOf_spec] <;> omega
  | lambda _ body | classDecl _ _ body | group body | function _ _ body =>
    simp only [parts] at hc
    have := List.sizeOf_lt_of_mem hc
    simp only [lambda.sizeOf_spec, classDecl.sizeOf_spec, group.sizeOf_spec, function.sizeOf_spec]
    omega
  | call span receiver callee args trailing =>
    rw [call.sizeOf_spec]
    simp only [parts, List.mem_append, List.mem_cons, Option.mem_toList] at hc
    rcases hc with rfl | rfl | hc | rfl
    · rw [Option.some.sizeOf_spec]
      omega
    · exact sizeOf_word_lt span callee (by omega)
    · have := List.sizeOf_lt_of_mem hc
      omega
    · rw [Option.some.sizeOf_spec]
      omega
  | binding _ before initializer after =>
    rw [binding.sizeOf_spec]
    simp only [parts, List.mem_append, Option.mem_toList] at hc
    rcases hc with (hc | rfl) | hc
    · have := List.sizeOf_lt_of_mem hc
      omega
    · rw [Option.some.sizeOf_spec]
      omega
    · have := List.sizeOf_lt_of_mem hc
      omega

theorem parts_induction {motive : Outline → Prop}
    (h : ∀ o, (∀ c ∈ o.parts, motive c) → motive o) (o : Outline) : motive o := by
  induction hk : sizeOf o using Nat.strongRecOn generalizing o with
  | ind k ih =>
    subst hk
    exact h o fun c hc => ih (sizeOf c) (sizeOf_lt_of_mem_parts hc) c rfl

inductive Everywhere (P : Outline → Prop) : Outline → Prop where
  | intro {o : Outline} : P o → (∀ c ∈ o.parts, Everywhere P c) → Everywhere P o

namespace Everywhere

variable {P : Outline → Prop} {o : Outline}

theorem here (h : Everywhere P o) : P o := by
  cases h with
  | intro hp _ => exact hp

theorem inside (h : Everywhere P o) : ∀ c ∈ o.parts, Everywhere P c := by
  cases h with
  | intro _ hc => exact hc

theorem imp {Q : Outline → Prop} (h : Everywhere P o) (hpq : ∀ c, P c → Q c) : Everywhere Q o := by
  induction h with
  | intro hp _ ih => exact .intro (hpq _ hp) ih

end Everywhere

def Single (o : Outline) : Prop := ∃ s, o.roots = [s]

def SingleOperands : Outline → Prop
  | navigation _ receiver _ => receiver.Single
  | call _ receiver _ _ trailing => (∀ r ∈ receiver, r.Single) ∧ ∀ l ∈ trailing, l.Single
  | argument _ _ value => value.Single
  | binary _ _ lhs rhs => lhs.Single ∧ rhs.Single
  | parenthesized _ inner => inner.Single
  | _ => True

@[simp] theorem rootsAll_eq (os : List Outline) : rootsAll os = os.flatMap roots := by
  induction os with
  | nil => rfl
  | cons o os ih => rw [rootsAll, ih, List.flatMap_cons]

@[simp] theorem rootsOption_eq (o : Option Outline) : rootsOption o = o.toList.flatMap roots := by
  cases o <;> simp [rootsOption]

private theorem roots_of_nodeSpan? {o : Outline} {s : Span} (h : o.nodeSpan? = some s) : o.roots = [s] := by
  cases o <;> simp_all [nodeSpan?, roots]

private theorem roots_of_bare {o : Outline} (h : o.nodeSpan? = none) : o.roots = o.parts.flatMap roots := by
  cases o <;> simp_all [nodeSpan?, roots, parts]

/-- Placing items one after the other takes one arena to another and leaves nodes on top. -/
inductive Lays : List Outline → Arena → List Nat → Arena → Prop where
  | nil {a : Arena} : Lays [] a [] a
  | node {o : Outline} {rest : List Outline} {a b c : Arena} {xs ys extra : List Nat} {span : Span}
      {shape : Shape} : o.nodeSpan? = some span → o.Shapes shape → shape.parts ++ extra = xs →
      Lays o.parts a xs b → Lays rest (b.add shape span extra) ys c →
      Lays (o :: rest) a (b.size :: ys) c
  | bare {o : Outline} {rest : List Outline} {a b c : Arena} {xs ys : List Nat} :
      o.nodeSpan? = none → Lays o.parts a xs b → Lays rest b ys c → Lays (o :: rest) a (xs ++ ys) c

/-- A node that was added over the laid parts of an item with a property. Since then only parents have
been set. -/
inductive StandsFor (P : Outline → Prop) (c : Arena) : Nat → Prop where
  | intro {o : Outline} {a b : Arena} {xs extra : List Nat} {span : Span} {shape : Shape} :
      P o → o.nodeSpan? = some span → o.Shapes shape → shape.parts ++ extra = xs →
      Lays o.parts a xs b →
      (∀ j ≤ b.size, ∃ p, c.node j = { (b.add shape span extra).node j with parent := p }) →
      StandsFor P c b.size

theorem StandsFor.congr {P : Outline → Prop} {b c : Arena} {i : Nat} (h : StandsFor P b i)
    (hbc : ∀ j ≤ i, ∃ p, c.node j = { b.node j with parent := p }) : StandsFor P c i := by
  cases h with
  | intro hp hspan hshape hids hparts hnodes =>
    refine .intro hp hspan hshape hids hparts fun j hj => ?_
    obtain ⟨p, hc⟩ := hbc j hj
    obtain ⟨q, hb⟩ := hnodes j hj
    exact ⟨p, by rw [hc, hb]⟩

end CoroutineCheck.Kotlin.Outline

namespace CoroutineCheck.Arena

/-- Trees over given spans stand behind an arena. -/
structure Placed (a b : Arena) (ids : List Nat) (roots : List Span) : Prop where
  grows : a.Grows b ids
  spans : ids.map (fun i => (b.node i).span) = roots

namespace Placed

variable {a b c : Arena} {xs ys : List Nat} {rs ss : List Span}

theorem nil (a : Arena) : a.Placed a [] [] := ⟨.refl a, rfl⟩

theorem append (h : a.Placed b xs rs) (h' : b.Placed c ys ss) :
    a.Placed c (xs ++ ys) (rs ++ ss) where
  grows := h.grows.append h'.grows
  spans := by
    rw [List.map_append, h'.spans, ← h.spans]
    congr 1
    apply List.map_congr_left
    intro i hi
    rw [h'.grows.node_eq i (h.grows.top_new i hi).2]

theorem add (h : a.Placed b xs rs) {shape : Shape} (span : Span) {extra : List Nat}
    (hp : shape.parts ++ extra = xs) :
    a.Placed (b.add shape span extra) [b.size] [span] where
  grows := h.grows.add span hp
  spans := by
    rw [List.map_singleton, node_add_self (h.grows.childrenOf_lt hp)]

theorem eq_singleton {s : Span} (h : a.Placed b xs [s]) : ∃ i, xs = [i] := by
  have hlen := congrArg List.length h.spans
  rw [List.length_map, List.length_singleton] at hlen
  exact List.length_eq_one_iff.mp hlen

end Placed
end CoroutineCheck.Arena

namespace CoroutineCheck.Kotlin.Outline

namespace Lays

variable {a b c : Arena} {os qs : List Outline} {xs ys : List Nat}

theorem append (h : Lays os a xs b) (h' : Lays qs b ys c) : Lays (os ++ qs) a (xs ++ ys) c := by
  induction h with
  | nil => exact h'
  | node hspan hshape hids hparts _ _ ih => exact .node hspan hshape hids hparts (ih h')
  | bare hspan hparts _ _ ih =>
    rw [List.append_assoc]
    exact .bare hspan hparts (ih h')

theorem placed (h : Lays os a xs b) : a.Placed b xs (os.flatMap roots) := by
  induction h with
  | nil => exact .nil _
  | node hspan _ hids _ _ ihparts ihrest =>
    rw [List.flatMap_cons, roots_of_nodeSpan? hspan]
    exact (ihparts.add _ hids).append ihrest
  | bare hspan _ _ ihparts ihrest =>
    rw [List.flatMap_cons, roots_of_bare hspan]
    exact ihparts.append ihrest

theorem standsFor {P : Outline → Prop} (h : Lays os a xs b) (hp : ∀ o ∈ os, o.Everywhere P) {i : Nat}
    (hi : a.size ≤ i) (hib : i < b.size) : StandsFor P b i := by
  induction h with
  | nil => omega
  | @node o rest a b c xs ys extra span shape hspan hshape hids hparts hrest ihparts ihrest =>
    obtain ⟨ho, hprest⟩ := List.forall_mem_cons.mp hp
    have hlt := hparts.placed.grows.childrenOf_lt hids
    have hgrows := hrest.placed.grows
    have hsize := Arena.size_add b shape span extra
    rcases Nat.lt_trichotomy i b.size with hlow | rfl | hhigh
    · refine (ihparts ho.inside hi hlow).congr fun j hj => ?_
      rw [hgrows.node_eq j (by omega)]
      exact Arena.exists_node_add_lt hlt (by omega)
    · refine .intro ho.here hspan hshape hids hparts fun j hj => ?_
      exact ⟨_, hgrows.node_eq j (by omega)⟩
    · exact ihrest hprest (by omega) hib
  | @bare o rest a b c xs ys hspan hparts hrest ihparts ihrest =>
    obtain ⟨ho, hprest⟩ := List.forall_mem_cons.mp hp
    by_cases hlow : i < b.size
    · refine (ihparts ho.inside hi hlow).congr fun j hj => ?_
      exact ⟨_, hrest.placed.grows.node_eq j (by omega)⟩
    · exact ihrest hprest (by omega) hib

theorem eq_singleton {o : Outline} (h : Lays [o] a xs b) (hs : o.Single) : ∃ i, xs = [i] := by
  obtain ⟨s, hs⟩ := hs
  have hp := h.placed
  rw [List.flatMap_singleton, hs] at hp
  exact hp.eq_singleton

theorem eq_toList_head? {o : Option Outline} (h : Lays o.toList a xs b) (hs : ∀ q ∈ o, q.Single) :
    xs = xs.head?.toList ∧ xs.head?.isSome = o.isSome := by
  cases o with
  | none =>
    cases h
    exact ⟨rfl, rfl⟩
  | some q =>
    obtain ⟨i, rfl⟩ := eq_singleton h (hs q rfl)
    exact ⟨rfl, rfl⟩

end Lays

def Places (o : Outline) : Prop :=
  ∀ (scope : Span) (d : Draft), Lays [o] d.arena (o.place scope d).1 (o.place scope d).2.arena

private theorem lays_addWord (d : Draft) (w : Word) :
    Lays [word w] d.arena [(d.addWord w).1] (d.addWord w).2.arena :=
  .node rfl rfl rfl .nil .nil

theorem lays_placeAll {os : List Outline} (h : ∀ o ∈ os, o.Places) (scope : Span) (d : Draft) :
    Lays os d.arena (placeAll scope os d).1 (placeAll scope os d).2.arena := by
  induction os generalizing d with
  | nil => exact .nil
  | cons o os ih =>
    have hfirst := h o (by simp) scope d
    exact hfirst.append (ih (fun c hc => h c (List.mem_cons_of_mem o hc)) (o.place scope d).2)

private theorem lays_placeOption {o : Option Outline} (h : ∀ c ∈ o, c.Places) (scope : Span) (d : Draft) :
    Lays o.toList d.arena (placeOption scope o d).1 (placeOption scope o d).2.arena := by
  cases o with
  | none => exact .nil
  | some c => exact h c rfl scope d

private theorem lays_one {o : Outline} {a b : Arena} {xs extra : List Nat} {span : Span}
    {shape : Shape} (h : Lays o.parts a xs b) (hspan : o.nodeSpan? = some span)
    (hshape : o.Shapes shape) (hids : shape.parts ++ extra = xs) :
    Lays [o] a [b.size] (b.add shape span extra) :=
  .node hspan hshape hids h .nil

private theorem lays_none {o : Outline} {a b : Arena} {xs : List Nat} (h : Lays o.parts a xs b)
    (hspan : o.nodeSpan? = none) : Lays [o] a xs b := by
  rw [← List.append_nil xs]
  exact .bare hspan h .nil

/-- Outlines with single operands are placed as `Lays` says. -/
theorem places {o : Outline} (hs : o.Everywhere SingleOperands) : o.Places := by
  induction o using parts_induction with
  | h o ih =>
    have hin : ∀ c ∈ o.parts, c.Places := fun c hc => ih c hc (hs.inside c hc)
    have hop := hs.here
    intro scope d
    cases o with
    | word w => exact lays_addWord d w
    | navigation span receiver selector =>
      have hr := hin receiver (by simp [parts]) scope d
      obtain ⟨i, hi⟩ := hr.eq_singleton hop
      refine lays_one (hr.append (lays_addWord _ selector)) rfl ⟨_, _, rfl⟩ ?_
      rw [hi]
      rfl
    | call span receiver callee args trailing =>
      have hreceiver := lays_placeOption (fun c (hc : c ∈ receiver) => hin c (by simp_all [parts]))
        scope d
      have hcallee := lays_addWord (placeOption scope receiver d).2 callee
      have hargs := lays_placeAll (fun c (hc : c ∈ args) => hin c (by simp_all [parts])) scope
        ((placeOption scope receiver d).2.addWord callee).2
      have htrailing := lays_placeOption (fun c (hc : c ∈ trailing) => hin c (by simp_all [parts]))
        scope (placeAll scope args ((placeOption scope receiver d).2.addWord callee).2).2
      obtain ⟨hr, hrsome⟩ := hreceiver.eq_toList_head? hop.1
      obtain ⟨hl, hlsome⟩ := htrailing.eq_toList_head? hop.2
      have hall := hreceiver.append (hcallee.append (hargs.append htrailing))
      refine lays_one hall rfl ⟨_, _, _, _, rfl, hrsome, hlsome⟩ ?_
      rw [Shape.parts, List.append_nil, ← hr]
      exact congrArg (fun l => _ ++ _ :: (_ ++ l)) hl.symm
    | argument span label value =>
      have hv := hin value (by simp [parts]) scope d
      obtain ⟨i, hi⟩ := hv.eq_singleton hop
      refine lays_one hv rfl ⟨_, rfl⟩ ?_
      rw [hi]
      rfl
    | binary span op lhs rhs =>
      have hl := hin lhs (by simp [parts]) scope d
      have hr := hin rhs (by simp [parts]) scope (lhs.place scope d).2
      obtain ⟨i, hi⟩ := hl.eq_singleton hop.1
      obtain ⟨j, hj⟩ := hr.eq_singleton hop.2
      refine lays_one (hl.append hr) rfl ⟨_, _, rfl⟩ ?_
      rw [hi, hj]
      rfl
    | parenthesized span inner =>
      have hv := hin inner (by simp [parts]) scope d
      obtain ⟨i, hi⟩ := hv.eq_singleton hop
      refine lays_one hv rfl ⟨_, rfl⟩ ?_
      rw [hi]
      rfl
    | lambda span body => exact lays_one (lays_placeAll hin span d) rfl rfl rfl
    | classDecl span info body => exact lays_one (lays_placeAll hin span d) rfl rfl rfl
    | wrapper kind span inner =>
      exact lays_one (hin inner (by simp [parts]) scope d) rfl rfl rfl
    | group items => exact lays_none (lays_placeAll hin scope d) rfl
    | function span decl body =>
      cases decl with
      | none => exact lays_none (lays_placeAll hin span d) rfl
      | some f =>
        exact lays_none (lays_placeAll hin span (d.declare (·.addFunction f.name f.type))) rfl
    | binding decl before initializer after =>
      have hbefore := lays_placeAll (fun c (hc : c ∈ before) => hin c (by simp_all [parts])) scope d
      have hinit := lays_placeOption (fun c (hc : c ∈ initializer) => hin c (by simp_all [parts]))
        scope (placeAll scope before d).2
      have hafter := lays_placeAll (fun c (hc : c ∈ after) => hin c (by simp_all [parts])) scope
        (placeOption scope initializer (placeAll scope before d).2).2
      have hall := (hbefore.append hinit).append hafter
      cases decl with
      | none => exact lays_none hall rfl
      | some v => exact lays_none hall rfl
    | package info => exact lays_none .nil rfl
    | imported info => exact lays_none .nil rfl

end CoroutineCheck.Kotlin.Outline

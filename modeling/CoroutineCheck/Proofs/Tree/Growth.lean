import CoroutineCheck.Proofs.Tree.Walks
import CoroutineCheck.Tree.Builder
/-!
# Growing an arena

An arena grows by whole trees: what was there before is not touched, every new node has its parent
among the new nodes or is one of the tops, and parents and children agree. Adding a node over some of the
tops turns several trees into one. A file that is laid out this way ends as a rooted tree.
-/
namespace CoroutineCheck.Arena

/-- One arena is another with new trees behind it; `tops` are their roots, in order of age. -/
structure Grows (a b : Arena) (tops : List Nat) : Prop where
  size_le : a.size ≤ b.size
  node_eq : ∀ i, i < a.size → b.node i = a.node i
  top_new : ∀ i ∈ tops, a.size ≤ i ∧ i < b.size
  tops_increasing : tops.Pairwise (· < ·)
  orphan_iff : ∀ i, a.size ≤ i → i < b.size → ((b.node i).parent = none ↔ i ∈ tops)
  child_new : ∀ i, a.size ≤ i → ∀ c ∈ (b.node i).children, a.size ≤ c
  child_iff : ∀ i, a.size ≤ i → ∀ c, c ∈ (b.node i).children ↔ (b.node c).parent = some i
  nodup_children : ∀ i, a.size ≤ i → (b.node i).children.Nodup

theorem node_of_size_le {a : Arena} {i : Nat} (h : a.size ≤ i) :
    a.node i = ⟨.other "", ⟨0, 0⟩, none, []⟩ := by
  unfold node
  exact dif_neg (Nat.not_lt.mpr h)

private theorem lt_of_parent {a : Arena} {i p : Nat} (h : (a.node i).parent = some p) : i < a.size := by
  have := lt_parent h
  omega

theorem exists_node_add_lt {a : Arena} {shape : Shape} {span : Span} {extra : List Nat}
    (h : ∀ c ∈ a.childrenOf shape extra, c < a.size) {i : Nat} (hi : i < a.size) :
    ∃ p, (a.add shape span extra).node i = { a.node i with parent := p } := by
  rw [node_add_lt h hi]
  split
  · exact ⟨_, rfl⟩
  · exact ⟨_, rfl⟩

theorem span_add_lt {a : Arena} {shape : Shape} {span : Span} {extra : List Nat}
    (h : ∀ c ∈ a.childrenOf shape extra, c < a.size) {i : Nat} (hi : i < a.size) :
    ((a.add shape span extra).node i).span = (a.node i).span := by
  obtain ⟨p, hp⟩ : ∃ p, (a.add shape span extra).node i = _ := exists_node_add_lt h hi
  rw [hp]

theorem children_add_lt {a : Arena} {shape : Shape} {span : Span} {extra : List Nat}
    (h : ∀ c ∈ a.childrenOf shape extra, c < a.size) {i : Nat} (hi : i < a.size) :
    ((a.add shape span extra).node i).children = (a.node i).children := by
  obtain ⟨p, hp⟩ : ∃ p, (a.add shape span extra).node i = _ := exists_node_add_lt h hi
  rw [hp]

namespace Grows

theorem refl (a : Arena) : a.Grows a [] where
  size_le := Nat.le_refl _
  node_eq _ _ := rfl
  top_new := by simp
  tops_increasing := .nil
  orphan_iff := by omega
  child_new i hi := by simp [node_of_size_le hi]
  child_iff i hi c := by
    rw [node_of_size_le hi]
    constructor
    · simp
    · intro h
      have := lt_parent h
      omega
  nodup_children i hi := by simp [node_of_size_le hi]

theorem append {a b c : Arena} {xs ys : List Nat} (h : a.Grows b xs) (h' : b.Grows c ys) :
    a.Grows c (xs ++ ys) where
  size_le := Nat.le_trans h.size_le h'.size_le
  node_eq i hi := by
    have hle := h.size_le
    rw [h'.node_eq i (by omega), h.node_eq i hi]
  top_new i hi := by
    have hle := h.size_le
    have hle' := h'.size_le
    rcases List.mem_append.mp hi with hi | hi
    · have := h.top_new i hi
      omega
    · have := h'.top_new i hi
      omega
  tops_increasing := by
    refine List.pairwise_append.mpr ⟨h.tops_increasing, h'.tops_increasing, ?_⟩
    intro x hx y hy
    have := (h.top_new x hx).2
    have := (h'.top_new y hy).1
    omega
  orphan_iff i hi hc := by
    rw [List.mem_append]
    by_cases hib : i < b.size
    · rw [h'.node_eq i hib, h.orphan_iff i hi hib]
      refine ⟨.inl, ?_⟩
      rintro (hx | hy)
      · exact hx
      · have := (h'.top_new i hy).1
        omega
    · rw [h'.orphan_iff i (by omega) hc]
      refine ⟨.inr, ?_⟩
      rintro (hx | hy)
      · have := (h.top_new i hx).2
        omega
      · exact hy
  child_new i hi x hx := by
    by_cases hib : i < b.size
    · rw [h'.node_eq i hib] at hx
      exact h.child_new i hi x hx
    · have hle := h.size_le
      have := h'.child_new i (by omega) x hx
      omega
  child_iff i hi x := by
    by_cases hib : i < b.size
    · rw [h'.node_eq i hib, h.child_iff i hi x]
      by_cases hxb : x < b.size
      · rw [h'.node_eq x hxb]
      · -- A node added later has its parent among the later nodes.
        constructor
        · intro hp
          exact absurd (lt_of_parent hp) hxb
        · intro hp
          have := lt_parent hp
          omega
    · exact h'.child_iff i (by omega) x
  nodup_children i hi := by
    by_cases hib : i < b.size
    · rw [h'.node_eq i hib]
      exact h.nodup_children i hi
    · exact h'.nodup_children i (by omega)

theorem childrenOf_lt {a b : Arena} {tops : List Nat} (h : a.Grows b tops) {shape : Shape}
    {extra : List Nat} (hp : shape.parts ++ extra = tops) :
    ∀ c ∈ b.childrenOf shape extra, c < b.size := by
  intro c hc
  rw [mem_childrenOf, ← List.mem_append, hp] at hc
  exact (h.top_new c hc).2

/-- A node added over some of the tops takes their place, behind the others. -/
theorem addOver {a b : Arena} {tops : List Nat} (h : a.Grows b tops) {shape : Shape} (span : Span)
    {extra : List Nat} (hparts : shape.parts.Nodup)
    (hover : ∀ c ∈ b.childrenOf shape extra, c ∈ tops) :
    a.Grows (b.add shape span extra)
      (tops.filter (fun i => !(b.childrenOf shape extra).contains i) ++ [b.size]) := by
  have hlt : ∀ c ∈ b.childrenOf shape extra, c < b.size := fun c hc => (h.top_new c (hover c hc)).2
  have hself : (b.add shape span extra).node b.size = _ := node_add_self hlt
  have hold {i : Nat} (hi : i < b.size) : (b.add shape span extra).node i = _ := node_add_lt hlt hi
  have hsize := size_add b shape span extra
  have hle := h.size_le
  have hleft {i : Nat} : i ∈ tops.filter (fun i => !(b.childrenOf shape extra).contains i) ↔
      i ∈ tops ∧ i ∉ b.childrenOf shape extra := by
    rw [List.mem_filter, Bool.not_eq_true', ← Bool.not_eq_true, List.contains_iff_mem]
  constructor
  case size_le => omega
  case node_eq =>
    intro i hi
    rw [hold (by omega), if_neg, h.node_eq i hi]
    intro hc
    have := (h.top_new i (hover i hc)).1
    omega
  case top_new =>
    intro i hi
    rw [List.mem_append, hleft, List.mem_singleton] at hi
    rcases hi with hi | rfl
    · have := h.top_new i hi.1
      omega
    · omega
  case tops_increasing =>
    refine List.pairwise_append.mpr ⟨h.tops_increasing.filter _, List.pairwise_singleton _ _, ?_⟩
    intro x hx y hy
    rw [List.mem_singleton] at hy
    exact hy ▸ (h.top_new x (hleft.mp hx).1).2
  case orphan_iff =>
    intro i hi hib
    rw [List.mem_append, hleft, List.mem_singleton]
    by_cases hlast : i = b.size
    · simp [hlast, hself]
    · have hi' : i < b.size := by omega
      rw [hold hi']
      by_cases hc : i ∈ b.childrenOf shape extra
      · simp [hc, hlast]
      · rw [if_neg hc, h.orphan_iff i hi hi']
        simp [hc, hlast]
  case child_new =>
    intro i hi c hc
    by_cases hlast : i = b.size
    · rw [hlast, hself] at hc
      exact (h.top_new c (hover c hc)).1
    · by_cases hi' : i < b.size
      · rw [children_add_lt hlt hi'] at hc
        exact h.child_new i hi c hc
      · rw [node_of_size_le (by omega)] at hc
        simp at hc
  case child_iff =>
    intro i hi c
    by_cases hlast : i = b.size
    · subst hlast
      rw [hself]
      constructor
      · intro hc
        rw [hold (hlt c hc), if_pos hc]
      · intro hc
        have hcb := lt_parent hc
        rw [hold hcb.1] at hc
        split at hc
        case isTrue ht => exact ht
        case isFalse =>
          have := lt_parent hc
          omega
    · by_cases hi' : i < b.size
      · rw [children_add_lt hlt hi', h.child_iff i hi c]
        by_cases hc : c < b.size
        · rw [hold hc]
          split
          case isTrue ht =>
            -- A top had no parent before and now has the new node.
            have hct := hover c ht
            rw [(h.orphan_iff c (h.top_new c hct).1 hc).mpr hct]
            simp [Ne.symm hlast]
          case isFalse => rfl
        · rw [node_of_size_le (Nat.not_lt.mp hc)]
          by_cases hcs : c = b.size
          · simp [hcs, hself]
          · rw [node_of_size_le (by omega)]
      · rw [node_of_size_le (by omega)]
        constructor
        · simp
        · intro hc
          have := lt_parent hc
          omega
  case nodup_children =>
    intro i hi
    by_cases hlast : i = b.size
    · rw [hlast, hself]
      exact b.nodup_childrenOf hparts extra
    · by_cases hi' : i < b.size
      · rw [children_add_lt hlt hi']
        exact h.nodup_children i hi
      · rw [node_of_size_le (by omega)]
        exact .nil

theorem add {a b : Arena} {tops : List Nat} (h : a.Grows b tops) {shape : Shape} (span : Span)
    {extra : List Nat} (hp : shape.parts ++ extra = tops) :
    a.Grows (b.add shape span extra) [b.size] := by
  have hmem : ∀ c, c ∈ b.childrenOf shape extra ↔ c ∈ tops := fun c => by
    rw [mem_childrenOf, ← List.mem_append, hp]
  have htops : (shape.parts ++ extra).Nodup := hp ▸ h.tops_increasing.imp fun hxy => Nat.ne_of_lt hxy
  have hnone : tops.filter (fun i => !(b.childrenOf shape extra).contains i) = [] := by
    refine List.filter_eq_nil_iff.mpr fun i hi => ?_
    rw [List.contains_iff_mem.mpr ((hmem i).mpr hi)]
    decide
  have hover := h.addOver span (List.nodup_append.mp htops).1 fun c hc => (hmem c).mp hc
  rwa [hnone, List.nil_append] at hover

end Grows

theorem orphans_of_grows {b : Arena} {tops : List Nat} (h : Arena.empty.Grows b tops) :
    b.orphans = tops := by
  have hsub : ∀ i, i ∈ b.orphans ↔ i ∈ tops := by
    intro i
    rw [orphans, List.mem_filter, List.mem_range, Option.isNone_iff_eq_none]
    constructor
    · rintro ⟨hi, hp⟩
      exact (h.orphan_iff i (Nat.zero_le i) hi).mp hp
    · intro hi
      have hlt := (h.top_new i hi).2
      exact ⟨hlt, (h.orphan_iff i (Nat.zero_le i) hlt).mpr hi⟩
  have hinc : b.orphans.Pairwise (· < ·) := List.pairwise_lt_range.filter _
  have hnd {l : List Nat} (hl : l.Pairwise (· < ·)) : l.Nodup := hl.imp fun hxy => Nat.ne_of_lt hxy
  refine List.Perm.eq_of_pairwise ?_ hinc h.tops_increasing
    ((List.perm_ext_iff_of_nodup (hnd hinc) (hnd h.tops_increasing)).mpr hsub)
  intro x y _ _ hxy hyx
  omega

private def withRoot (b : Arena) (source kind : String) : Arena :=
  b.add (.other kind) ⟨0, Text.byteLength source.toList⟩ b.orphans

private theorem parts_withRoot {b : Arena} {tops : List Nat} (h : Arena.empty.Grows b tops)
    (kind : String) : (Shape.other kind).parts ++ b.orphans = tops := by
  rw [orphans_of_grows h]
  rfl

private theorem grows_withRoot {b : Arena} {tops : List Nat} (h : Arena.empty.Grows b tops)
    (source kind : String) : Arena.empty.Grows (b.withRoot source kind) [b.size] :=
  h.add _ (parts_withRoot h kind)

private theorem node_finishWithRoot {b : Arena} {tops : List Nat} (h : Arena.empty.Grows b tops)
    (source kind : String) (i : Nat) :
    (b.finishWithRoot source kind).node i = (b.withRoot source kind).node i := by
  have hroot : ((b.withRoot source kind).node b.size).parent = none :=
    ((grows_withRoot h source kind).orphan_iff b.size (Nat.zero_le _) (by simp [withRoot])).mpr
      (by simp)
  rw [finishWithRoot, node_finish]
  split
  case isTrue hi =>
    subst hi
    change _ = (b.withRoot source kind).node b.size
    rw [← hroot]
    rfl
  case isFalse => rfl

theorem size_finishWithRoot (b : Arena) (source kind : String) :
    (b.finishWithRoot source kind).size = b.size + 1 := by
  rw [finishWithRoot, size_finish, size_add]

theorem node_finishWithRoot_lt {b : Arena} {tops : List Nat} (h : Arena.empty.Grows b tops)
    (source kind : String) {i : Nat} (hi : i < b.size) :
    ∃ p, (b.finishWithRoot source kind).node i = { b.node i with parent := p } := by
  have hlt := h.childrenOf_lt (parts_withRoot h kind)
  rw [node_finishWithRoot h, withRoot]
  exact exists_node_add_lt hlt hi

theorem node_finishWithRoot_root {b : Arena} {tops : List Nat} (h : Arena.empty.Grows b tops)
    (source kind : String) :
    (b.finishWithRoot source kind).node b.size =
      ⟨.other kind, ⟨0, Text.byteLength source.toList⟩, none, b.childrenOf (.other kind) tops⟩ := by
  have hlt := h.childrenOf_lt (parts_withRoot h kind)
  rw [node_finishWithRoot h, withRoot, node_add_self hlt, orphans_of_grows h]

/-- An arena that grew from nothing becomes a rooted tree. -/
theorem rooted_finishWithRoot {b : Arena} {tops : List Nat} (h : Arena.empty.Grows b tops)
    (source kind : String) : (b.finishWithRoot source kind).Rooted := by
  have hg := grows_withRoot h source kind
  have hnode := node_finishWithRoot h source kind
  have hsize := size_finishWithRoot b source kind
  constructor
  case root_lt =>
    rw [hsize]
    exact Nat.lt_succ_self b.size
  case mem_children_iff =>
    intro p c
    rw [Tree.children, Tree.parent?, hnode, hnode]
    exact hg.child_iff p (Nat.zero_le p) c
  case nodup_children =>
    intro p
    rw [Tree.children, hnode]
    exact hg.nodup_children p (Nat.zero_le p)
  case parent_eq_none =>
    intro i hi hp
    rw [Tree.parent?, hnode] at hp
    rw [hsize] at hi
    exact List.mem_singleton.mp ((hg.orphan_iff i (Nat.zero_le i) (by simpa [withRoot] using hi)).mp hp)
  case root_parent =>
    have hroot := node_finishWithRoot_root h source kind
    change ((b.finishWithRoot source kind).node b.size).parent = none
    rw [hroot]

end CoroutineCheck.Arena

theorem CoroutineCheck.Tree.lt_size_of_shape {t : Tree} {id : Nat} (h : t.shape id ≠ .other "") :
    id < t.size := by
  refine Nat.lt_of_not_le fun hle => h ?_
  rw [shape, node, Arena.node_of_size_le hle]

import CoroutineCheck.Report.Result
import Mathlib.Data.List.Basic
/-!
# The order of reports

Paths are ordered by their components, and violations by file, line and column. Both orders are total
preorders: paths are tied when their components are the same, violations when they stand at one place
of one file. A stable sort is the only list in order that keeps tied elements as they were.
-/
namespace CoroutineCheck

theorem transCmp_on {α β : Type} (cmp : β → β → Ordering) [Std.TransCmp cmp] (key : α → β) :
    Std.TransCmp fun x y => cmp (key x) (key y) where
  eq_swap := Std.OrientedCmp.eq_swap (α := β)
  isLE_trans := Std.TransCmp.isLE_trans (α := β)

namespace Path

def Component.text : Component → String
  | name s => s
  | _ => ""

private theorem Component.compare_eq (a b : Component) :
    a.compare b = compareLex (compareOn rank) (compareOn text) a b := by
  cases a <;> cases b <;> rfl

instance : Std.TransCmp Component.compare := by
  have h : Component.compare = compareLex (compareOn Component.rank) (compareOn Component.text) :=
    funext fun a => funext (Component.compare_eq a)
  rw [h]
  infer_instance

instance : Std.LawfulEqCmp Component.compare where
  compare_self := Std.ReflCmp.compare_self
  eq_of_compare {a b} h := by
    rw [Component.compare_eq, compareLex_eq_eq] at h
    cases a <;> cases b <;> simp_all [compareOn, Component.rank, Component.text]

private theorem compareComponents_eq : compareComponents = List.compareLex Component.compare := by
  funext as bs
  induction as generalizing bs with
  | nil => cases bs <;> rfl
  | cons a as ih =>
    cases bs with
    | nil => rfl
    | cons b bs => rw [compareComponents, List.compareLex_cons_cons, ih]

instance : Std.TransCmp compareComponents :=
  compareComponents_eq ▸ inferInstance

instance : Std.TransCmp Path.compare :=
  transCmp_on compareComponents components

theorem compare_eq_iff {p q : Path} : p.compare q = .eq ↔ p.components = q.components := by
  rw [compare, compareComponents_eq]
  exact Std.LawfulEqCmp.compare_eq_iff_eq

end Path

namespace Violation

def comparePosition (v w : Violation) : Ordering :=
  (compare v.location.line w.location.line).then (compare v.location.column w.location.column)

instance : Std.TransCmp comparePosition :=
  inferInstanceAs (Std.TransCmp
    (compareLex (compareOn fun v : Violation => v.location.line)
      (compareOn fun v : Violation => v.location.column)))

def compareFile (v w : Violation) : Ordering := v.location.file.compare w.location.file

instance : Std.TransCmp compareFile :=
  transCmp_on Path.compare fun v : Violation => v.location.file

def compare (v w : Violation) : Ordering :=
  compareLex compareFile comparePosition v w

instance : Std.TransCmp Violation.compare :=
  inferInstanceAs (Std.TransCmp (compareLex compareFile comparePosition))

theorem compare_eq_iff {v w : Violation} : v.compare w = .eq ↔
    v.location.file.components = w.location.file.components ∧ v.comparePosition w = .eq := by
  rw [compare, compareLex_eq_eq, compareFile, Path.compare_eq_iff]

end Violation

section StableSort

variable {α : Type} {cmp : α → α → Ordering} [Std.TransCmp cmp] {l xs ys : List α}

def InOrder (cmp : α → α → Ordering) (l : List α) : Prop :=
  l.Pairwise fun a b => (cmp a b).isLE = true

private theorem isLE_total (a b : α) : ((cmp a b).isLE || (cmp b a).isLE) = true := by
  rw [@Std.OrientedCmp.eq_swap _ cmp _ b a]
  cases cmp a b <;> rfl

theorem inOrder_mergeSort (l : List α) : InOrder cmp (l.mergeSort fun a b => (cmp a b).isLE) :=
  List.pairwise_mergeSort (fun _ _ _ => Std.TransCmp.isLE_trans) isLE_total l

/-- Sorting is stable: elements that are tied keep their order. -/
theorem filter_mergeSort {p : α → Bool}
    (h : ∀ a ∈ l, ∀ b ∈ l, p a = true → p b = true → cmp a b = .eq) :
    (l.mergeSort fun a b => (cmp a b).isLE).filter p = l.filter p := by
  have hpairs : (l.filter p).Pairwise fun a b => (cmp a b).isLE = true := by
    apply List.pairwise_of_forall_mem_list
    intro a ha b hb
    obtain ⟨ha, hpa⟩ := List.mem_filter.mp ha
    obtain ⟨hb, hpb⟩ := List.mem_filter.mp hb
    rw [h a ha b hb hpa hpb]
    rfl
  have hsub : (l.filter p).Sublist ((l.mergeSort fun a b => (cmp a b).isLE).filter p) := by
    have hkept := (List.sublist_mergeSort (fun _ _ _ => Std.TransCmp.isLE_trans) isLE_total hpairs
      List.filter_sublist).filter p
    simpa only [List.filter_filter, Bool.and_self] using hkept
  have hlen := ((List.mergeSort_perm l fun a b => (cmp a b).isLE).filter p).length_eq
  exact (hsub.eq_of_length hlen.symm).symm

private theorem mem_filter_tied {a : α} : a ∈ l.filter (cmp a · == .eq) ↔ a ∈ l := by
  have hself : cmp a a = .eq := Std.ReflCmp.compare_self
  simp [hself]

private theorem isLE_head {a b : α} {l : List α} (h : InOrder cmp (a :: l)) (hb : b ∈ a :: l) :
    (cmp a b).isLE = true := by
  rcases List.mem_cons.mp hb with rfl | hb
  · have hself : cmp b b = .eq := Std.ReflCmp.compare_self
    rw [hself]
    rfl
  · exact (List.pairwise_cons.mp h).1 b hb

private theorem InOrder.eq_of_filter_eq (hx : InOrder cmp xs) (hy : InOrder cmp ys)
    (h : ∀ a, xs.filter (cmp a · == .eq) = ys.filter (cmp a · == .eq)) : xs = ys := by
  induction xs generalizing ys with
  | nil =>
    cases ys with
    | nil => rfl
    | cons y ys => exact absurd (mem_filter_tied.mpr List.mem_cons_self) (by rw [← h y]; simp)
  | cons x xs ih =>
    have hxmem : x ∈ ys := mem_filter_tied.mp (h x ▸ mem_filter_tied.mpr List.mem_cons_self)
    cases ys with
    | nil => cases hxmem
    | cons y ys =>
      have hymem : y ∈ x :: xs := mem_filter_tied.mp (h y ▸ mem_filter_tied.mpr List.mem_cons_self)
      -- Each head comes first in both lists, so the heads are tied.
      have hxy : cmp x y = .eq := by
        have hle := isLE_head hx hymem
        have hge := isLE_head hy hxmem
        rw [@Std.OrientedCmp.eq_swap _ cmp _ y x] at hge
        cases hcmp : cmp x y with
        | lt => simp [hcmp] at hge
        | eq => rfl
        | gt => simp [hcmp] at hle
      have hself : cmp x x = .eq := Std.ReflCmp.compare_self
      have hheads := h x
      simp only [List.filter_cons, hself, hxy, beq_self_eq_true, if_true, List.cons.injEq] at hheads
      obtain ⟨rfl, -⟩ := hheads
      have htails (a : α) : xs.filter (cmp a · == .eq) = ys.filter (cmp a · == .eq) := by
        have ha := h a
        rw [List.filter_cons, List.filter_cons] at ha
        split at ha
        · exact (List.cons.inj ha).2
        · exact ha
      rw [ih (List.pairwise_cons.mp hx).2 (List.pairwise_cons.mp hy).2 htails]

theorem mergeSort_eq_of_filter_eq (hy : InOrder cmp ys)
    (h : ∀ a, ys.filter (cmp a · == .eq) = l.filter (cmp a · == .eq)) :
    (l.mergeSort fun a b => (cmp a b).isLE) = ys := by
  apply (inOrder_mergeSort l).eq_of_filter_eq hy
  intro a
  rw [h a]
  apply filter_mergeSort
  intro b _ c _ hb hc
  rw [beq_iff_eq] at hb hc
  exact Std.TransCmp.eq_trans (Std.OrientedCmp.eq_symm hb) hc

end StableSort

end CoroutineCheck

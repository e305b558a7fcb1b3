import CoroutineCheck.Kotlin.Declarations
/-!
# Innermost variables

A variable is looked up among those of its name whose scope reaches the offset, and the shortest scope
wins. Where scopes nest or have nothing in common this is the innermost scope around the offset, unless
a scope that ends there is shorter still: the look-up counts the end of a scope to it.
-/
namespace CoroutineCheck

/-- The offsets in a span, without its end. -/
def Span.Holds (a : Span) (x : Nat) : Prop := a.start ≤ x ∧ x < a.stop

private theorem Span.contains_of_holds {a b : Span} {x : Nat} (hb : b.Holds x)
    (h : ∀ y, b.Holds y → a.Holds y) : a.contains b = true := by
  simp only [Holds] at hb h
  have hfirst := h b.start ⟨by omega, by omega⟩
  have hlast := h (b.stop - 1) ⟨by omega, by omega⟩
  exact contains_iff.mpr ⟨hfirst.1, by omega⟩

namespace Kotlin.Declarations

variable {d : Declarations} {name : String} {offset : Nat}

/-! ## The look-up -/

private theorem shortest?_eq_none_iff {vs : List VariableInfo} : shortest? vs = none ↔ vs = [] := by
  cases vs with
  | nil => simp [shortest?]
  | cons v rest =>
    rw [shortest?]
    split
    · split <;> simp
    · simp

private theorem shortest?_spec {vs : List VariableInfo} {w : VariableInfo} (h : shortest? vs = some w) :
    w ∈ vs ∧ ∀ v ∈ vs, w.scope.length ≤ v.scope.length := by
  induction vs generalizing w with
  | nil => cases h
  | cons v rest ih =>
    rw [shortest?] at h
    split at h
    case h_1 u hu =>
      obtain ⟨hmem, hleast⟩ := ih hu
      split at h
      case isTrue hlt =>
        cases h
        refine ⟨List.mem_cons_of_mem v hmem, fun x hx => ?_⟩
        rcases List.mem_cons.mp hx with rfl | hx
        · exact Nat.le_of_lt hlt
        · exact hleast x hx
      case isFalse hge =>
        cases h
        refine ⟨List.mem_cons_self, fun x hx => ?_⟩
        rcases List.mem_cons.mp hx with rfl | hx
        · exact Nat.le_refl _
        · exact Nat.le_trans (Nat.not_lt.mp hge) (hleast x hx)
    case h_2 hnone =>
      cases h
      rw [shortest?_eq_none_iff.mp hnone]
      simp

/-- A variable of the name whose scope reaches the offset, its end included. -/
structure Reaches (d : Declarations) (name : String) (offset : Nat) (v : VariableInfo) : Prop where
  mem : v ∈ d.bindings
  name_eq : v.name = name
  start_le : v.scope.start ≤ offset
  le_stop : offset ≤ v.scope.stop

private theorem mem_visible_iff {v : VariableInfo} :
    v ∈ d.bindings.filter (VariableInfo.visibleAt · name offset) ↔ d.Reaches name offset v := by
  simp only [List.mem_filter, VariableInfo.visibleAt, Bool.and_eq_true, beq_iff_eq, decide_eq_true_eq]
  constructor
  · rintro ⟨hmem, ⟨hname, hstart⟩, hstop⟩
    exact ⟨hmem, hname, hstart, hstop⟩
  · intro h
    exact ⟨h.mem, ⟨h.name_eq, h.start_le⟩, h.le_stop⟩

private theorem variableAt?_isSome_iff :
    (d.variableAt? name offset).isSome = true ↔ ∃ v, d.Reaches name offset v := by
  rw [variableAt?, Option.isSome_iff_ne_none, Ne, shortest?_eq_none_iff]
  constructor
  · intro hne
    obtain ⟨v, hv⟩ := List.exists_mem_of_ne_nil _ hne
    exact ⟨v, mem_visible_iff.mp hv⟩
  · rintro ⟨v, hv⟩
    exact List.ne_nil_of_mem (mem_visible_iff.mpr hv)

private theorem variableAt?_spec {w : VariableInfo} (h : d.variableAt? name offset = some w) :
    d.Reaches name offset w ∧
      ∀ v, d.Reaches name offset v → w.scope.length ≤ v.scope.length := by
  obtain ⟨hmem, hleast⟩ := shortest?_spec h
  exact ⟨mem_visible_iff.mp hmem, fun v hv => hleast v (mem_visible_iff.mpr hv)⟩

/-! ## The innermost scope -/

/-- A variable of the name whose scope holds the offset. -/
structure InScope (d : Declarations) (name : String) (offset : Nat) (v : VariableInfo) : Prop where
  mem : v ∈ d.bindings
  name_eq : v.name = name
  holds : v.scope.Holds offset

theorem InScope.reaches {v : VariableInfo} (h : d.InScope name offset v) : d.Reaches name offset v :=
  ⟨h.mem, h.name_eq, h.holds.1, Nat.le_of_lt h.holds.2⟩

theorem Reaches.inScope {v : VariableInfo} (h : d.Reaches name offset v) (hne : v.scope.stop ≠ offset) :
    d.InScope name offset v :=
  ⟨h.mem, h.name_eq, h.start_le, Nat.lt_of_le_of_ne h.le_stop hne.symm⟩

/-- Of any two scopes one lies in the other, or they have no offset in common. -/
def ScopesNest (d : Declarations) : Prop :=
  ∀ v ∈ d.bindings, ∀ w ∈ d.bindings,
    (∀ x, v.scope.Holds x → w.scope.Holds x) ∨ (∀ x, w.scope.Holds x → v.scope.Holds x) ∨
      ∀ x, v.scope.Holds x → ¬ w.scope.Holds x

/-- What the scopes call for: an answer where a variable of the name is in scope, and then one whose scope
lies in all others. -/
structure IsInnermost (d : Declarations) (name : String) (offset : Nat) (answer : Option VariableInfo) :
    Prop where
  isSome_iff : answer.isSome = true ↔ ∃ v, d.InScope name offset v
  inside : ∀ w, answer = some w →
    d.InScope name offset w ∧ ∀ v, d.InScope name offset v → v.scope.contains w.scope = true

private theorem ScopesNest.contains_of_shortest (h : d.ScopesNest) {v w : VariableInfo}
    (hv : d.InScope name offset v) (hw : d.InScope name offset w)
    (hle : w.scope.length ≤ v.scope.length) : v.scope.contains w.scope = true := by
  rcases h v hv.mem w hw.mem with hvw | hwv | hapart
  · -- The longer one inside the shorter is the same scope.
    have hcontains := Span.contains_iff.mp (Span.contains_of_holds hv.holds hvw)
    have hv' := hv.holds
    rw [Span.contains_iff]
    simp only [Span.length, Span.Holds] at hle hv'
    omega
  · exact Span.contains_of_holds hw.holds hwv
  · exact absurd hw.holds (hapart offset hv.holds)

private theorem ScopesNest.isInnermost_iff (h : d.ScopesNest) :
    d.IsInnermost name offset (d.variableAt? name offset) ↔
      ∀ w, d.variableAt? name offset = some w → w.scope.stop ≠ offset := by
  constructor
  · intro hinner w hw hstop
    have hlt := (hinner.inside w hw).1.holds.2
    omega
  · intro hends
    have hscope {w : VariableInfo} (hw : d.variableAt? name offset = some w) :
        d.InScope name offset w := (variableAt?_spec hw).1.inScope (hends w hw)
    constructor
    case isSome_iff =>
      constructor
      · intro hsome
        obtain ⟨w, hw⟩ := Option.isSome_iff_exists.mp hsome
        exact ⟨w, hscope hw⟩
      · rintro ⟨v, hv⟩
        exact variableAt?_isSome_iff.mpr ⟨v, hv.reaches⟩
    case inside =>
      intro w hw
      exact ⟨hscope hw, fun v hv =>
        h.contains_of_shortest hv (hscope hw) ((variableAt?_spec hw).2 v hv.reaches)⟩

/-- With scopes that nest or are apart, the look-up answers where a scope of the name reaches the offset,
its end included, and gives a shortest one. That is the innermost variable in scope exactly if the scope
given does not end at the offset, and in particular if no scope of the name does. -/
theorem variableAt?_counts_scope_ends (h : d.ScopesNest) (name : String) (offset : Nat) :
    ((d.variableAt? name offset).isSome = true ↔ ∃ v, d.Reaches name offset v) ∧
    (∀ w, d.variableAt? name offset = some w → d.Reaches name offset w ∧
      ∀ v, d.Reaches name offset v → w.scope.length ≤ v.scope.length) ∧
    (d.IsInnermost name offset (d.variableAt? name offset) ↔
      ∀ w, d.variableAt? name offset = some w → w.scope.stop ≠ offset) ∧
    ((∀ v ∈ d.bindings, v.name = name → v.scope.stop ≠ offset) →
      d.IsInnermost name offset (d.variableAt? name offset)) := by
  refine ⟨variableAt?_isSome_iff, fun w hw => variableAt?_spec hw, h.isInnermost_iff, fun hends => ?_⟩
  refine h.isInnermost_iff.mpr fun w hw => ?_
  have hreaches := (variableAt?_spec hw).1
  exact hends w hreaches.mem hreaches.name_eq

def twoJobs (first second : Span) : Declarations :=
  { empty with bindings := [⟨"job", some "Job", none, first⟩, ⟨"job", some "String", none, second⟩] }

private theorem scopesNest_twoJobs {first second : Span}
    (h : (∀ x, second.Holds x → first.Holds x) ∨ ∀ x, second.Holds x → ¬ first.Holds x) :
    (twoJobs first second).ScopesNest := by
  intro v hv w hw
  simp only [twoJobs, List.mem_cons, List.not_mem_nil, or_false] at hv hw
  rcases hv with rfl | rfl
  · rcases hw with rfl | rfl
    · exact .inl fun _ hx => hx
    · exact .inr (h.imp_right fun hapart x hx hx' => hapart x hx' hx)
  · rcases hw with rfl | rfl
    · exact h.imp_right .inr
    · exact .inl fun _ hx => hx

theorem variableAt?_counts_scope_ends_twoJobs :
    (twoJobs ⟨0, 100⟩ ⟨10, 20⟩).ScopesNest ∧
    (twoJobs ⟨0, 100⟩ ⟨10, 20⟩).variableAt? "job" 15 = some ⟨"job", some "String", none, ⟨10, 20⟩⟩ ∧
    (twoJobs ⟨0, 100⟩ ⟨10, 20⟩).IsInnermost "job" 15
      ((twoJobs ⟨0, 100⟩ ⟨10, 20⟩).variableAt? "job" 15) ∧
    ((twoJobs ⟨0, 100⟩ ⟨10, 20⟩).variableAt? "job" 20).isSome = true := by
  have hnest : (twoJobs ⟨0, 100⟩ ⟨10, 20⟩).ScopesNest := by
    refine scopesNest_twoJobs (.inl fun x hx => ?_)
    simp only [Span.Holds] at hx ⊢
    omega
  have hends : ∀ v ∈ (twoJobs ⟨0, 100⟩ ⟨10, 20⟩).bindings, v.name = "job" → v.scope.stop ≠ 15 := by
    decide
  obtain ⟨_, _, _, hinner⟩ := variableAt?_counts_scope_ends hnest "job" 15
  obtain ⟨hsome, _⟩ := variableAt?_counts_scope_ends hnest "job" 20
  refine ⟨hnest, by decide, hinner hends, hsome.mpr ⟨⟨"job", some "Job", none, ⟨0, 100⟩⟩, ?_⟩⟩
  exact ⟨List.mem_cons_self, rfl, by decide, by decide⟩

/-- Where one scope ends and the next begins, the shorter one that has ended is taken. -/
theorem variableAt?_takes_ended_scope :
    (twoJobs ⟨0, 5⟩ ⟨5, 20⟩).ScopesNest ∧
    (twoJobs ⟨0, 5⟩ ⟨5, 20⟩).InScope "job" 5 ⟨"job", some "String", none, ⟨5, 20⟩⟩ ∧
    (twoJobs ⟨0, 5⟩ ⟨5, 20⟩).variableAt? "job" 5 = some ⟨"job", some "Job", none, ⟨0, 5⟩⟩ ∧
    ¬ (twoJobs ⟨0, 5⟩ ⟨5, 20⟩).IsInnermost "job" 5 ((twoJobs ⟨0, 5⟩ ⟨5, 20⟩).variableAt? "job" 5) := by
  have hnest : (twoJobs ⟨0, 5⟩ ⟨5, 20⟩).ScopesNest := by
    refine scopesNest_twoJobs (.inr fun x hx hx' => ?_)
    simp only [Span.Holds] at hx hx'
    omega
  have hanswer : (twoJobs ⟨0, 5⟩ ⟨5, 20⟩).variableAt? "job" 5 =
      some ⟨"job", some "Job", none, ⟨0, 5⟩⟩ := by decide
  have hscope : (twoJobs ⟨0, 5⟩ ⟨5, 20⟩).InScope "job" 5 ⟨"job", some "String", none, ⟨5, 20⟩⟩ :=
    ⟨List.mem_cons_of_mem _ List.mem_cons_self, rfl, by decide, by decide⟩
  exact ⟨hnest, hscope, hanswer, fun hinner => hnest.isInnermost_iff.mp hinner _ hanswer rfl⟩

end Kotlin.Declarations
end CoroutineCheck

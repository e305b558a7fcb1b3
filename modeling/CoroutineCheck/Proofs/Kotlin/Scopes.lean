import CoroutineCheck.Proofs.Kotlin.References
import Mathlib.Data.List.Forall2
/-!
# Scopes of variables

A function, class or lambda is the scope of what is declared in it. The variables of an item are those of
its parts, in the scope that the item opens, and then the one that it declares itself. So a variable that
is recorded for a row has the scope of the innermost row above that opens one, however far up that row
stands, and whatever the rows between are.
-/
namespace CoroutineCheck.Kotlin

open Reading Outline

/-! ## Variables of an outline -/

namespace Outline

def opened? : Outline → Option Span
  | lambda s _ | classDecl s _ _ | function s _ _ => some s
  | _ => none

def bound? : Outline → Option Typed
  | binding decl _ _ _ => decl
  | _ => none

/-- The variables that an item declares in a scope, in the order in which they are recorded. -/
def bindings (scope : Span) (o : Outline) : List (Typed × Span) :=
  (o.parts.attach.flatMap fun c => bindings (o.opened?.getD scope) c.1) ++
    (o.bound?.map (·, scope)).toList
termination_by sizeOf o
decreasing_by exact sizeOf_lt_of_mem_parts c.2

private theorem bindings_eq (scope : Span) (o : Outline) : o.bindings scope =
    o.parts.flatMap (bindings (o.opened?.getD scope)) ++ (o.bound?.map (·, scope)).toList := by
  rw [bindings]
  congr 1
  conv_rhs => rw [← List.attach_map_subtype_val o.parts, List.flatMap_map]

private theorem bindings_of_bound?_eq_none {o : Outline} (h : o.bound? = none) (scope : Span) :
    o.bindings scope = o.parts.flatMap (bindings (o.opened?.getD scope)) := by
  rw [bindings_eq, h]
  exact List.append_nil _

@[simp] theorem bindings_word (scope : Span) (w : Word) : (word w).bindings scope = [] := by
  rw [bindings_eq]
  rfl

private theorem collects_bindings (scope : Span) : Collects (bindings scope) := by
  intro o ho
  have hbound : o.bound? = none := by
    cases o with
    | binding => cases ho
    | _ => rfl
  have hopened : o.opened? = none := by
    cases o with
    | lambda | classDecl | function => cases ho
    | _ => rfl
  rw [bindings_of_bound?_eq_none hbound, hopened]
  rfl

end Outline

def VariableInfo.entry (v : VariableInfo) : Typed × Span := (⟨v.name, v.type⟩, v.scope)

def Draft.recorded (d : Draft) : List (Typed × Span) := d.declarations.bindings.map VariableInfo.entry

def Outline.Records (o : Outline) : Prop :=
  ∀ (scope : Span) (d : Draft), (o.place scope d).2.recorded = d.recorded ++ o.bindings scope

private theorem recorded_placeAll {os : List Outline} (h : ∀ o ∈ os, o.Records) (scope : Span) (d : Draft) :
    (placeAll scope os d).2.recorded = d.recorded ++ os.flatMap (bindings scope) := by
  induction os generalizing d with
  | nil => exact (List.append_nil _).symm
  | cons o os ih =>
    obtain ⟨ho, hos⟩ := List.forall_mem_cons.mp h
    rw [placeAll, ih hos, ho scope d, List.flatMap_cons, List.append_assoc]

private theorem recorded_placeOption {o : Option Outline} (h : ∀ c ∈ o, c.Records) (scope : Span)
    (d : Draft) :
    (placeOption scope o d).2.recorded = d.recorded ++ o.toList.flatMap (bindings scope) := by
  cases o with
  | none => exact (List.append_nil _).symm
  | some c =>
    rw [placeOption, h c rfl scope d, Option.toList_some, List.flatMap_singleton]

theorem Outline.records (o : Outline) : o.Records := by
  induction o using parts_induction with
  | h o ih =>
    intro scope d
    cases o with
    | word | package | imported =>
      rw [bindings_of_bound?_eq_none rfl]
      exact (List.append_nil _).symm
    | navigation span receiver selector =>
      have hr := ih receiver (by simp [parts]) scope d
      rw [bindings_of_bound?_eq_none rfl]
      refine hr.trans ?_
      simp [parts, opened?]
    | argument _ _ inner | parenthesized _ inner | wrapper _ _ inner =>
      have hinner := ih inner (by simp [parts]) scope d
      rw [bindings_of_bound?_eq_none rfl]
      refine hinner.trans ?_
      simp [parts, opened?]
    | call span receiver callee args trailing =>
      have hreceiver := recorded_placeOption (fun c (hc : c ∈ receiver) => ih c (by simp_all [parts]))
        scope d
      have hargs := recorded_placeAll (fun c (hc : c ∈ args) => ih c (by simp_all [parts])) scope
        ((placeOption scope receiver d).2.addWord callee).2
      have htrailing := recorded_placeOption (fun c (hc : c ∈ trailing) => ih c (by simp_all [parts]))
        scope (placeAll scope args ((placeOption scope receiver d).2.addWord callee).2).2
      rw [bindings_of_bound?_eq_none rfl]
      refine (htrailing.trans (congrArg (· ++ _) (hargs.trans (congrArg (· ++ _) hreceiver)))).trans ?_
      simp [parts, opened?]
    | binary span op lhs rhs =>
      have hl := ih lhs (by simp [parts]) scope d
      have hr := ih rhs (by simp [parts]) scope (lhs.place scope d).2
      rw [bindings_of_bound?_eq_none rfl]
      refine (hr.trans (congrArg (· ++ _) hl)).trans ?_
      simp [parts, opened?]
    | lambda span | classDecl span =>
      rw [bindings_of_bound?_eq_none rfl]
      exact recorded_placeAll ih span d
    | group items =>
      rw [bindings_of_bound?_eq_none rfl]
      exact recorded_placeAll ih scope d
    | function span decl body =>
      rw [bindings_of_bound?_eq_none rfl]
      cases decl with
      | none => exact recorded_placeAll ih span d
      | some f => exact recorded_placeAll ih span (d.declare (·.addFunction f.name f.type))
    | binding decl before initializer after =>
      have hbefore := recorded_placeAll (fun c (hc : c ∈ before) => ih c (by simp_all [parts])) scope d
      have hinit := recorded_placeOption (fun c (hc : c ∈ initializer) => ih c (by simp_all [parts]))
        scope (placeAll scope before d).2
      have hafter := recorded_placeAll (fun c (hc : c ∈ after) => ih c (by simp_all [parts])) scope
        (placeOption scope initializer (placeAll scope before d).2).2
      have hall := hafter.trans (congrArg (· ++ _) (hinit.trans (congrArg (· ++ _) hbefore)))
      rw [bindings_eq]
      cases decl with
      | none => simpa [place, parts, opened?, bound?] using hall
      | some v =>
        have hadd (e : Draft) (i : Option Nat) :
            (e.declare (·.addVariable ⟨v.name, v.type, i, scope⟩)).recorded = e.recorded ++ [(v, scope)] :=
          List.map_append
        refine (hadd _ _).trans ((congrArg (· ++ _) hall).trans ?_)
        simp [parts, opened?, bound?]

/-! ## Variables of a row -/

namespace Reading

/-- The scope that a row opens. That of an annotated lambda is the literal in it, if it has one. -/
def scope? (r : Reading) : Option Span :=
  match r.kind with
  | "function_declaration" | "class_declaration" | "object_declaration" | "lambda_literal" => some r.span
  | "annotated_lambda" => some (((firstIn? "lambda_literal" r.children).map span).getD r.span)
  | _ => none

/-- The variable that a row declares: a parameter does so itself, and a property in the last of the
declarations in it. -/
def declared? (source : List Char) (r : Reading) : Option Typed :=
  match r.kind with
  | "property_declaration" => (r.children.filter (·.kind == "variable_declaration")).getLast?.bind
      fun d => readTyped? source d.children
  | "parameter" | "class_parameter" => readTyped? source r.children
  | _ => none

end Reading

section Rows

variable {source : List Char}

private theorem decl_propertyParts (sawSign : Bool) (p : PropertyParts) (rows : List Reading) :
    (propertyParts source sawSign p rows).decl =
      ((rows.filter (·.kind == "variable_declaration")).getLast?.map
        fun d => readTyped? source d.children).getD p.decl := by
  induction rows generalizing sawSign p with
  | nil => rfl
  | cons r rest ih =>
    unfold propertyParts
    cases hdecl : r.kind == "variable_declaration" with
    | true =>
      rw [if_pos rfl, ih, List.filter_cons, if_pos hdecl, List.getLast?_cons]
      cases (rest.filter (·.kind == "variable_declaration")).getLast? <;> rfl
    | false =>
      rw [List.filter_cons, hdecl, if_neg Bool.false_ne_true, if_neg Bool.false_ne_true]
      repeat' split
      all_goals rw [ih]

private theorem CallReads.opened?_bound? {span : Span} {rows : List Reading} {o : Outline}
    (h : CallReads source span rows o) : o.opened? = none ∧ o.bound? = none := by
  cases h <;> exact ⟨rfl, rfl⟩

private theorem opened?_bound?_outline {r : Reading} (h : Throughout (Genuine source) r) :
    r.outline.opened? = r.scope? ∧ r.outline.bound? = r.declared? source := by
  have hcall : ∀ q ∈ r.call, q.opened? = none ∧ q.bound? = none := by
    intro q hq
    rw [h.here.call] at hq
    split at hq
    · exact (callReads_of_readCall? hq).opened?_bound?
    · cases hq
  have hinside := h.inside
  rw [h.here.outline]
  unfold scope? declared? readRow
  generalize r.kind = kind at *
  generalize r.children = rows at *
  generalize r.call = call at *
  by_cases hid : identifierKinds.contains kind = true
  · rw [if_pos hid]
    simp only [identifierKinds, List.contains_iff_mem, List.mem_cons, List.not_mem_nil, or_false] at hid
    rcases hid with rfl | rfl | rfl <;> exact ⟨rfl, rfl⟩
  by_cases hnone : (typeKinds.contains kind || commentKinds.contains kind) = true
  · rw [if_neg hid, if_pos hnone]
    simp only [typeKinds, commentKinds, Bool.or_eq_true, List.contains_iff_mem, List.mem_cons,
      List.not_mem_nil, or_false] at hnone
    rcases hnone with (rfl | rfl | rfl | rfl | rfl | rfl | rfl | rfl | rfl | rfl) |
      (rfl | rfl | rfl | rfl) <;> exact ⟨rfl, rfl⟩
  rw [if_neg hid, if_neg hnone]
  split
  · exact ⟨rfl, rfl⟩
  case h_2 | h_3 => split <;> exact ⟨rfl, rfl⟩
  · cases call with
    | none => exact ⟨rfl, rfl⟩
    | some q => exact hcall q rfl
  · unfold readNavigation?
    cases navigationParts? rows <;> exact ⟨rfl, rfl⟩
  case h_6 | h_7 =>
    obtain ⟨op, hsum⟩ := readSum?_eq source r.span rows
    rw [hsum]
    cases sumSides? source rows <;> exact ⟨rfl, rfl⟩
  · split <;> exact ⟨rfl, rfl⟩
  · exact ⟨rfl, rfl⟩
  · unfold readLambda
    cases hfound : firstIn? "lambda_literal" rows with
    | none => exact ⟨rfl, rfl⟩
    | some found =>
      obtain ⟨hkind, hgenuine⟩ := firstIn?_spec hinside hfound
      have hliteral := hgenuine.here.outline_literal hkind
      exact ⟨congrArg opened? hliteral, congrArg bound? hliteral⟩
  case h_11 | h_12 => exact ⟨rfl, rfl⟩
  · exact ⟨rfl, rfl⟩
  · refine ⟨rfl, (decl_propertyParts _ _ _).trans ?_⟩
    cases (rows.filter (·.kind == "variable_declaration")).getLast? <;> rfl
  case h_15 | h_16 => exact ⟨rfl, rfl⟩
  · constructor
    · split <;> first | rfl | contradiction
    · split <;> first | rfl | contradiction

/-- The variables of a row are those of the rows that it passes on, in the scope that it opens, and then
its own. -/
theorem bindings_outline {r : Reading} (h : Throughout (Genuine source) r) (scope : Span) :
    r.outline.bindings scope =
      ((r.passes source).flatMap fun c => c.outline.bindings (r.scope?.getD scope)) ++
        ((r.declared? source).map (·, scope)).toList := by
  obtain ⟨hopened, hbound⟩ := opened?_bound?_outline h
  rcases outline_collects (collects_bindings (r.scope?.getD scope)) h with
    ⟨found, hfirst, hfound, hpasses⟩ | hparts
  · obtain ⟨hkind, hgenuine⟩ := firstIn?_spec h.inside hfirst
    have hliteral := hgenuine.here.outline_literal hkind
    have hnone : r.declared? source = none := by
      rw [← hbound, hfound, hliteral]
      rfl
    -- The literal opens a scope itself, so it does not matter in which one it stands.
    rw [hpasses, List.flatMap_singleton, hnone, hfound, hliteral, bindings_of_bound?_eq_none rfl,
      bindings_of_bound?_eq_none rfl]
    exact (List.append_nil _).symm
  · rw [bindings_eq, hopened, hbound, hparts]

end Rows

/-! ## Ways down to a row -/

namespace Reading

/-- A row is reached from another one through the rows above it, from the top down. -/
inductive Leads : (top : Reading) → (above : List Reading) → (r : Reading) → Prop where
  | here {r : Reading} : Leads r [] r
  | down {top c r : Reading} {above : List Reading} :
      c ∈ top.children → Leads c above r → Leads top (top :: above) r

theorem Leads.trans {a b c : Reading} {above more : List Reading} (h : a.Leads above b)
    (h' : b.Leads more c) : a.Leads (above ++ more) c := by
  induction h with
  | here => exact h'
  | down hc _ ih => exact .down hc (ih h')

private theorem throughout_leads (r : Reading) : Throughout (fun c => ∃ above, r.Leads above c) r := by
  induction hk : sizeOf r using Nat.strongRecOn generalizing r with
  | ind k ih =>
    subst hk
    refine .intro ⟨[], .here⟩ fun c hc => ?_
    refine (ih (sizeOf c) (sizeOf_lt_of_mem hc) c rfl).imp ?_
    rintro d ⟨above, hd⟩
    exact ⟨r :: above, .down hc hd⟩

/-- The innermost of the scopes that rows open, given from the top down; the whole file if there is none. -/
def innermost (file : Span) (above : List Reading) : Span := (above.filterMap scope?).getLast?.getD file

private theorem innermost_append (file : Span) (above more : List Reading) :
    innermost file (above ++ more) = innermost (innermost file above) more := by
  unfold innermost
  rw [List.filterMap_append, List.getLast?_append]
  cases (more.filterMap scope?).getLast? <;> rfl

private theorem innermost_cons (file : Span) (r : Reading) (above : List Reading) :
    innermost file (r :: above) = innermost (r.scope?.getD file) above := by
  have hr : innermost file [r] = r.scope?.getD file := by
    cases hs : r.scope? <;> simp [innermost, hs]
  rw [← hr, ← innermost_append]
  rfl

private theorem innermost_of_forall {file : Span} {above : List Reading} (h : ∀ r ∈ above, r.scope? = none) :
    innermost file above = file := by
  rw [innermost, List.filterMap_eq_nil_iff.mpr h]
  rfl

/-- A row stands in one of some rows, and none of those between opens a scope. -/
def Near (rows : List Reading) (c : Reading) : Prop :=
  ∃ top ∈ rows, ∃ between, top.Leads between c ∧ ∀ p ∈ between, p.scope? = none

private theorem near_of_mem {rows : List Reading} {c : Reading} (hc : c ∈ rows) : Near rows c :=
  ⟨c, hc, [], .here, by simp⟩

theorem Near.below {rows : List Reading} {p c : Reading} (h : Near rows p) (hp : p.scope? = none)
    (hc : c ∈ p.children) : Near rows c := by
  obtain ⟨top, htop, between, hleads, hnone⟩ := h
  refine ⟨top, htop, between ++ [p], hleads.trans (.down hc .here), ?_⟩
  intro q hq
  rcases List.mem_append.mp hq with hq | hq
  · exact hnone q hq
  · rw [List.mem_singleton.mp hq, hp]

private theorem scope?_eq_none {r : Reading} {kind : String} (h : r.kind = kind)
    (hkind : kind ∈ ["call_suffix", "navigation_suffix", "value_arguments", "value_argument"]) :
    r.scope? = none := by
  unfold scope?
  rw [h]
  simp only [List.mem_cons, List.not_mem_nil, or_false] at hkind
  rcases hkind with rfl | rfl | rfl | rfl <;> rfl

end Reading

section Ways

variable {source : List Char} {rows : List Reading}

private theorem near_callPart {part : Reading} (h : part ∈ callParts rows) : Near rows part := by
  rcases mem_callParts h with hmem | ⟨r, hr, hkind, hmem⟩
  · exact near_of_mem hmem
  · exact (near_of_mem hr).below (scope?_eq_none hkind (by simp)) hmem

private theorem near_callRow {c : Reading} (hc : c ∈ callRows rows) : Near rows c := by
  unfold callRows at hc
  split at hc
  · simp at hc
  case h_2 head rest hparts =>
    have hpart {part : Reading} (hp : part ∈ head :: rest) : Near rows part := near_callPart (hparts ▸ hp)
    simp only [List.mem_cons, List.mem_append, Option.mem_toList] at hc
    rcases hc with rfl | hc | hc
    · exact hpart (by simp)
    · unfold argumentValuesIn at hc
      cases hf : rest.find? (·.kind == "value_arguments") with
      | none => simp [hf] at hc
      | some list =>
        rw [hf] at hc
        obtain ⟨a, ha, hv⟩ := List.mem_filterMap.mp hc
        obtain ⟨hnamed, hkind⟩ := List.mem_filter.mp ha
        have hlist : list.kind = "value_arguments" := by simpa using List.find?_some hf
        have harg : a.kind = "value_argument" := by simpa using hkind
        exact ((hpart (List.mem_cons_of_mem head (List.mem_of_find?_eq_some hf))).below
          (scope?_eq_none hlist (by simp)) (mem_of_mem_namedOf hnamed)).below
          (scope?_eq_none harg (by simp)) (mem_of_mem_namedOf (List.mem_of_getLast? hv))
    · exact hpart (List.mem_cons_of_mem head (List.mem_of_find?_eq_some hc))

private theorem ReadsAs.near_or_literal {span : Span} {call : Option Outline} {kind : String} {o : Outline}
    {passed : List Reading} (hr : ReadsAs source span call rows kind o passed) :
    ∀ c ∈ passed, Near rows c ∨
      c.kind = "lambda_literal" ∧ ∃ top ∈ rows, ∃ between, top.Leads between c := by
  have hnear {passed : List Reading} (h : ∀ c ∈ passed, c ∈ rows) : ∀ c ∈ passed, Near rows c ∨
      c.kind = "lambda_literal" ∧ ∃ top ∈ rows, ∃ between, top.Leads between c :=
    fun c hc => .inl (near_of_mem (h c hc))
  cases hr with
  | word | nothing | package | imported => simp
  | group | lambda => exact hnear fun c hc => mem_of_mem_namedOf hc
  | call => exact fun c hc => .inl (near_callRow hc)
  | @navigation receiver selector hn =>
    obtain ⟨last, hsub, _, hsel⟩ := navigationParts?_spec hn
    have hlast := near_of_mem (hsub.subset (List.mem_cons_of_mem receiver (List.mem_singleton.mpr rfl)))
    have hselector : Near rows selector := by
      rcases hsel with rfl | ⟨hkind, hmem⟩
      · exact hlast
      · exact hlast.below (scope?_eq_none hkind (by simp)) hmem
    simp [near_of_mem (hsub.subset (List.mem_cons_self)), hselector]
  | sum hs =>
    obtain ⟨hl, hr⟩ := mem_of_operationSides? hs
    exact hnear (by simp [hl, hr])
  | parenthesized hi => exact hnear (by simp [mem_of_mem_namedOf (List.mem_of_head? hi)])
  | @annotated found hf =>
    have hleads : ∀ r ∈ rows, Throughout (fun c => ∃ top ∈ rows, ∃ between, top.Leads between c) r :=
      fun r hr => (throughout_leads r).imp fun c hc => ⟨r, hr, hc⟩
    obtain ⟨hkind, hfound⟩ := firstIn?_spec hleads hf
    simp only [List.mem_singleton, forall_eq]
    exact .inr ⟨hkind, hfound.here⟩
  | classDecl =>
    exact hnear fun c hc => mem_of_mem_namedOf (List.mem_of_mem_eraseP (List.mem_filter.mp hc).1)
  | function => exact hnear fun c hc => List.mem_of_mem_eraseP (mem_of_mem_namedOf hc)
  | property => exact hnear fun c hc => (List.mem_filter.mp hc).1
  | parameter => exact hnear fun c hc => mem_of_mem_namedOf (List.mem_of_mem_eraseP hc)

/-- A way down from a row passed on goes on from the row that passes it on, and a variable at its end keeps
its innermost scope. -/
private theorem exists_way {r p c : Reading} {above : List Reading} (hp : p ∈ r.passes source)
    (h : p.Leads above c) (hdecl : (c.declared? source).isSome = true) (file : Span) :
    ∃ between, r.Leads (r :: (between ++ above)) c ∧
      innermost file (r :: (between ++ above)) = innermost (r.scope?.getD file) above := by
  rcases (readRow_readsAs source r.kind r.span r.call r.children).near_or_literal p hp with
    ⟨top, htop, between, hleads, hnone⟩ | ⟨hkind, top, htop, between, hleads⟩
  · refine ⟨between, .down htop (hleads.trans h), ?_⟩
    rw [innermost_cons, innermost_append, innermost_of_forall hnone]
  · refine ⟨between, .down htop (hleads.trans h), ?_⟩
    -- The literal declares nothing itself, so it is one of the rows above.
    cases h with
    | here => simp [declared?, hkind] at hdecl
    | down hc hbelow =>
      have hscope : p.scope? = some p.span := by
        unfold scope?
        rw [hkind]
        rfl
      rw [innermost_cons, innermost_append, innermost_cons, innermost_cons, hscope]
      rfl

end Ways

/-! ## Rows in view -/

/-- The rows in view from a row, each with the rows that pass it on, from the top down. Rows that are passed
on come before the row itself. -/
def Reading.viewed (source : List Char) (r : Reading) : List (List Reading × Reading) :=
  ((r.passes source).attach.flatMap fun c => (viewed source c.1).map fun p => (r :: p.1, p.2)) ++ [([], r)]
termination_by sizeOf r
decreasing_by exact sizeOf_lt_of_mem_passes c.2

section Viewed

variable {source : List Char}

private theorem Reading.viewed_eq (r : Reading) : r.viewed source =
    ((r.passes source).flatMap fun c => (c.viewed source).map fun p => (r :: p.1, p.2)) ++ [([], r)] := by
  rw [viewed]
  congr 1
  conv_rhs => rw [← List.attach_map_subtype_val (r.passes source), List.flatMap_map]

private theorem Reading.mem_viewed_iff {r c : Reading} :
    (∃ chain, (chain, c) ∈ r.viewed source) ↔ r.Views source c := by
  induction hk : sizeOf r using Nat.strongRecOn generalizing r with
  | ind k ih =>
    subst hk
    rw [Views, Relation.ReflTransGen.cases_head_iff, viewed_eq]
    constructor
    · rintro ⟨chain, hc⟩
      rcases List.mem_append.mp hc with hc | hc
      · obtain ⟨p, hp, hc⟩ := List.mem_flatMap.mp hc
        obtain ⟨q, hq, heq⟩ := List.mem_map.mp hc
        cases heq
        exact .inr ⟨p, hp, (ih (sizeOf p) (sizeOf_lt_of_mem_passes hp) rfl).mp ⟨q.1, hq⟩⟩
      · cases List.mem_singleton.mp hc
        exact .inl rfl
    · rintro (rfl | ⟨p, hp, hview⟩)
      · exact ⟨[], by simp⟩
      · obtain ⟨chain, hchain⟩ := (ih (sizeOf p) (sizeOf_lt_of_mem_passes hp) rfl).mpr hview
        exact ⟨r :: chain, List.mem_append_left _ (List.mem_flatMap.mpr
          ⟨p, hp, List.mem_map.mpr ⟨(chain, c), hchain, rfl⟩⟩)⟩

/-- A variable is the one that a row declares, in the innermost scope of the rows that pass the row on. A way
down to the row leads through these, and has no scope further in. -/
structure Reading.Binds (source : List Char) (file : Span) (top : Reading) (v : Typed × Span)
    (p : List Reading × Reading) : Prop where
  declared : p.2.declared? source = some v.1
  scope : v.2 = innermost file p.1
  way : ∃ above, top.Leads above p.2 ∧ p.1.Sublist above ∧ innermost file above = innermost file p.1

def Reading.declaring (source : List Char) (r : Reading) : List (List Reading × Reading) :=
  (r.viewed source).filter fun p => (p.2.declared? source).isSome

private theorem Reading.Binds.pass {file : Span} {r c : Reading} {v : Typed × Span}
    {p : List Reading × Reading} (hc : c ∈ r.passes source) (h : c.Binds source (r.scope?.getD file) v p) :
    r.Binds source file v (r :: p.1, p.2) := by
  obtain ⟨above, hleads, hsub, hinner⟩ := h.way
  have hsome : (p.2.declared? source).isSome = true := by
    rw [h.declared]
    rfl
  obtain ⟨between, hway, hsame⟩ := exists_way hc hleads hsome file
  refine ⟨h.declared, ?_, r :: (between ++ above), hway, ?_, ?_⟩
  · rw [innermost_cons]
    exact h.scope
  · exact (hsub.trans (List.sublist_append_right between above)).cons_cons r
  · rw [hsame, hinner, ← innermost_cons]

private theorem forall₂_flatMap {α β γ : Type} {R : β → γ → Prop} {f : α → List β} {g : α → List γ}
    {xs : List α}
    (h : ∀ x ∈ xs, List.Forall₂ R (f x) (g x)) : List.Forall₂ R (xs.flatMap f) (xs.flatMap g) := by
  refine List.rel_flatMap (R := fun x y => x = y ∧ x ∈ xs) (List.forall₂_same.mpr fun x hx => ⟨rfl, hx⟩) ?_
  rintro x _ ⟨rfl, hx⟩
  exact h x hx

private theorem bindings_bind {r : Reading} (h : Throughout (Genuine source) r) (file : Span) :
    List.Forall₂ (r.Binds source file) (r.outline.bindings file) (r.declaring source) := by
  induction hk : sizeOf r using Nat.strongRecOn generalizing r file with
  | ind k ih =>
    subst hk
    rw [bindings_outline h, declaring, viewed_eq, List.filter_append, List.filter_flatMap]
    refine List.rel_append (forall₂_flatMap fun c hc => ?_) ?_
    · have hbelow := ih (sizeOf c) (sizeOf_lt_of_mem_passes hc) (throughout_passes h.inside c hc)
        (r.scope?.getD file) rfl
      rw [List.filter_map, List.forall₂_map_right_iff]
      exact hbelow.imp fun v p hv => hv.pass hc
    · cases hdecl : r.declared? source with
      | none => simp [hdecl]
      | some v =>
        have hself : r.Binds source file (v, file) ([], r) := ⟨hdecl, rfl, [], .here, .slnil, rfl⟩
        simpa [hdecl] using hself

end Viewed

theorem mem_declaring_iff {source : List Char} {root r : Reading} :
    (∃ chain, (chain, r) ∈ (namedOf root.children).flatMap (declaring source)) ↔
      root.InView source r ∧ (r.declared? source).isSome = true := by
  unfold InView
  simp only [← mem_viewed_iff, List.mem_flatMap, declaring, List.mem_filter]
  constructor
  · rintro ⟨chain, top, htop, hmem, hdecl⟩
    exact ⟨⟨top, htop, chain, hmem⟩, hdecl⟩
  · rintro ⟨⟨top, htop, chain, hmem⟩, hdecl⟩
    exact ⟨chain, top, htop, hmem, hdecl⟩

/-- The variables of a file are those that its rows in view declare, in that order, each in the innermost
scope above. The root stands for the file and opens no scope itself. -/
theorem layout_bindings_bind (source : String) (root : Row) :
    List.Forall₂
      (fun v p => ∃ top ∈ namedOf (root.read source.toList).children,
        top.Binds source.toList ⟨0, Text.byteLength source.toList⟩ v.entry p)
      (layout source root).declarations.bindings
      ((namedOf (root.read source.toList).children).flatMap (declaring source.toList)) := by
  have hrecorded : (layout source root).declarations.bindings.map VariableInfo.entry =
      (outlineOf source.toList root).flatMap (bindings ⟨0, Text.byteLength source.toList⟩) :=
    recorded_placeAll (fun o _ => o.records) _ Draft.empty
  rw [← List.forall₂_map_left_iff
    (R := fun e p => ∃ top ∈ namedOf (root.read source.toList).children,
      top.Binds source.toList ⟨0, Text.byteLength source.toList⟩ e p),
    hrecorded, outlineOf, flatMap_outlines, Row.readAll_eq, ← Row.read_children]
  refine forall₂_flatMap fun top htop => ?_
  have hgenuine := (genuine_read source.toList root).inside top (mem_of_mem_namedOf htop)
  exact (bindings_bind hgenuine _).imp fun v p hv => ⟨top, htop, hv⟩

end CoroutineCheck.Kotlin

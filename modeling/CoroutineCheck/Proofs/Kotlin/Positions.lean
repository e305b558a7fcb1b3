import CoroutineCheck.Proofs.Kotlin.Nesting
import CoroutineCheck.Proofs.Kotlin.References
/-!
# Expression positions

An identifier row in expression position is a reference. Rows pass on most of what stands in them,
and what they leave out is listed here, kind by kind. Every reference is either visited in the tree
or stands in one of these places.
-/
namespace CoroutineCheck.Kotlin

open Reading

def closedKinds : List String :=
  typeKinds ++ commentKinds ++ ["package_header", "import", "import_header"]

def namingKinds : List String :=
  ["class_declaration", "object_declaration", "function_declaration", "parameter",
   "class_parameter", "variable_declaration"]

namespace Reading

/-- The first name in the row is no reference: a declaration's own, or the label of an argument. -/
def hasName (r : Reading) : Bool :=
  namingKinds.contains r.kind || (r.kind == "value_argument" && r.children.any (·.kind == "="))

/-- A row in expression position below another: no row above it is a type, a comment, a package
header or an import, and it is not the name of the row that it stands in. -/
inductive InExpression : (p r : Reading) → Prop where
  | child {p c : Reading} {before after : List Reading} :
      closedKinds.contains p.kind = false → p.children = before ++ c :: after →
      (p.hasName = true → c.isIdentifier = true → ∃ n ∈ namedOf before, n.isIdentifier = true) →
      InExpression p c
  | deeper {p c r : Reading} :
      closedKinds.contains p.kind = false → c ∈ p.children → InExpression c r → InExpression p r

def Reaches (p r : Reading) : Prop := p = r ∨ p.InExpression r

structure Calls (p head : Reading) (rest : List Reading) : Prop where
  kind : p.kind = "call_expression"
  call : p.call.isSome = true
  parts : callParts p.children = head :: rest

/-- What a row leaves out of the tree, with everything below. -/
inductive Omits (source : List Char) (p : Reading) : Reading → Prop where
  | anonymous {d : Reading} : d ∈ p.children → d.named = false → Omits source p d
  | inName {n d : Reading} : n = p ∨ n ∈ p.children → n.isIdentifier = true → d ∈ n.children →
      Omits source p d
  | supertype {d : Reading} : p.kind = "class_declaration" ∨ p.kind = "object_declaration" →
      d ∈ p.children → delegationKinds.contains d.kind = true → Omits source p d
  | variable {d : Reading} : p.kind = "property_declaration" → d ∈ p.children →
      d.kind = "variable_declaration" ∨ d.kind = "=" → Omits source p d
  | parenthesized {d : Reading} : p.kind = "parenthesized_expression" → d ∈ p.children →
      (namedOf p.children).head? ≠ some d → Omits source p d
  | annotated {found d : Reading} : p.kind = "annotated_lambda" →
      firstIn? "lambda_literal" p.children = some found → d ∈ p.children → d ≠ found →
      Omits source p d
  | sum {l r d : Reading} : p.kind = "binary_expression" ∨ p.kind = "additive_expression" →
      sumSides? source p.children = some (l, r) → d ∈ p.children → d ≠ l → d ≠ r →
      Omits source p d
  | navigation {receiver selector d : Reading} : p.kind = "navigation_expression" →
      navigationParts? p.children = some (receiver, selector) → d ∈ p.children → d ≠ receiver →
      d ≠ selector → d.kind ≠ "navigation_suffix" → Omits source p d
  | selector {receiver selector last d : Reading} : p.kind = "navigation_expression" →
      navigationParts? p.children = some (receiver, selector) → last ∈ p.children →
      last.kind = "navigation_suffix" → d ∈ last.children → d ≠ selector → Omits source p d
  | suffix {s d : Reading} : p.kind = "call_expression" → s ∈ p.children →
      s.kind = "call_suffix" → d ∈ s.children → d.named = false → Omits source p d
  | part {head d : Reading} {rest : List Reading} : p.Calls head rest → d ∈ rest →
      rest.find? (·.kind == "value_arguments") ≠ some d →
      rest.find? (fun r => lambdaKinds.contains r.kind) ≠ some d → Omits source p d
  | arguments {head list d : Reading} {rest : List Reading} : p.Calls head rest →
      rest.find? (·.kind == "value_arguments") = some list → d ∈ list.children →
      d.named = false ∨ d.kind ≠ "value_argument" → Omits source p d
  | argument {head list a d : Reading} {rest : List Reading} : p.Calls head rest →
      rest.find? (·.kind == "value_arguments") = some list → a ∈ list.children → d ∈ a.children →
      (namedOf a.children).getLast? ≠ some d → Omits source p d

end Reading

section Positions

variable {source : List Char} {p d r : Reading} {before after : List Reading}

private theorem not_closed_of_isIdentifier (h : r.isIdentifier = true) :
    closedKinds.contains r.kind = false := by
  unfold isIdentifier identifierKinds at h
  simp only [List.contains_iff_mem, List.mem_cons, List.not_mem_nil, or_false] at h
  rcases h with h | h | h <;> rw [h] <;> decide

private theorem Reading.InExpression.not_closed (h : p.InExpression r) :
    closedKinds.contains p.kind = false := by
  cases h with
  | child h | deeper h => exact h

private theorem Reading.Reaches.not_closed (h : d.Reaches r) (hr : r.isIdentifier = true) :
    closedKinds.contains d.kind = false := by
  rcases h with rfl | h
  · exact not_closed_of_isIdentifier hr
  · exact h.not_closed

private theorem Reading.InExpression.exists_child (h : p.InExpression r) : ∃ d ∈ p.children, d.Reaches r := by
  cases h with
  | child _ hsplit => exact ⟨_, by simp [hsplit], .inl rfl⟩
  | deeper _ hc h => exact ⟨_, hc, .inr h⟩

private theorem Reading.Reaches.exists_child (h : d.Reaches r) (hr : r.isIdentifier = true)
    (hd : identifierKinds.contains d.kind = false) : ∃ e ∈ d.children, e.Reaches r := by
  rcases h with rfl | h
  · exact absurd (hd.symm.trans hr) (by decide)
  · exact h.exists_child

/-- The next row on the way to a reference, unless it is left out: it is named, and it is not the
name of the row that it stands in. -/
theorem Reading.InExpression.step (source : List Char) (h : p.InExpression r) :
    (∃ d, p.Omits source d ∧ d.Reaches r) ∨
    ∃ before d after, p.children = before ++ d :: after ∧ d.Reaches r ∧ d.named = true ∧
      (p.hasName = true → d.isIdentifier = true → ∃ n ∈ namedOf before, n.isIdentifier = true) := by
  have hnamed {d : Reading} (hd : d ∈ p.children) (hr : d.Reaches r) :
      (∃ d, p.Omits source d ∧ d.Reaches r) ∨ d.named = true := by
    cases hn : d.named with
    | true => exact .inr rfl
    | false => exact .inl ⟨d, .anonymous hd hn, hr⟩
  cases h with
  | @child _ _ before after _ hsplit hname =>
    refine (hnamed (by simp [hsplit]) (.inl rfl)).imp_right fun hn => ?_
    exact ⟨before, r, after, hsplit, .inl rfl, hn, hname⟩
  | @deeper _ c _ _ hc h =>
    cases hid : c.isIdentifier with
    | true =>
      obtain ⟨d, hd, hr⟩ := h.exists_child
      exact .inl ⟨d, .inName (.inr hc) hid hd, hr⟩
    | false =>
      obtain ⟨before, after, hsplit⟩ := List.append_of_mem hc
      refine (hnamed hc (.inr h)).imp_right fun hn => ?_
      exact ⟨before, c, after, hsplit, .inr h, hn, fun _ h => by rw [hid] at h; cases h⟩

private theorem mem_eraseP_isIdentifier
    (hname : d.isIdentifier = true → ∃ n ∈ before, n.isIdentifier = true) :
    d ∈ (before ++ d :: after).eraseP isIdentifier := by
  cases hid : d.isIdentifier with
  | false => exact (List.mem_eraseP_of_neg (by simp [hid])).mpr (by simp)
  | true =>
    obtain ⟨n, hn, hnid⟩ := hname hid
    rw [List.eraseP_append_left hnid _ hn]
    simp

/-- Apart from calls and navigations, which look further down, a row passes on a row that stands in
it, or leaves it out. -/
private theorem mem_passes_or_omits (hclosed : closedKinds.contains p.kind = false)
    (hid : p.isIdentifier = false) (hsplit : p.children = before ++ d :: after)
    (hnamed : d.named = true)
    (hname : p.hasName = true → d.isIdentifier = true → ∃ n ∈ namedOf before, n.isIdentifier = true)
    (hcall : p.kind = "call_expression" → p.call.isSome = false)
    (hnav : p.kind = "navigation_expression" → navigationParts? p.children = none) :
    d ∈ p.passes source ∨ p.Omits source d := by
  have hmem : d ∈ p.children := by simp [hsplit]
  have hd : d ∈ namedOf p.children := List.mem_filter.mpr ⟨hmem, hnamed⟩
  have hkept (hhas : p.hasName = true) : d ∈ (namedOf p.children).eraseP isIdentifier := by
    have hrows : namedOf p.children = namedOf before ++ d :: namedOf after := by
      simp [hsplit, namedOf, hnamed]
    rw [hrows]
    exact mem_eraseP_isIdentifier (hname hhas)
  have hnone : ¬ (identifierKinds.contains p.kind || typeKinds.contains p.kind ||
      commentKinds.contains p.kind) = true := by
    have hkind : identifierKinds.contains p.kind = false := hid
    unfold closedKinds at hclosed
    simp_all
  unfold passes passedOn
  rw [if_neg hnone]
  split
  case h_1 hk | h_2 hk | h_3 hk =>
    exact absurd hclosed (by rw [hk]; decide)
  case h_4 hk =>
    rw [hcall hk]
    exact .inl hd
  case h_5 hk =>
    rw [hnav hk]
    exact .inl hd
  case h_6 hk | h_7 hk =>
    cases hs : sumSides? source p.children with
    | none => exact .inl hd
    | some sides =>
      obtain ⟨left, right⟩ := sides
      by_cases hl : d = left
      · exact .inl (by simp [hl])
      by_cases hr : d = right
      · exact .inl (by simp [hr])
      exact .inr (.sum (by simp [hk]) hs hmem hl hr)
  case h_8 hk =>
    by_cases hh : (namedOf p.children).head? = some d
    · exact .inl (by simp [hh])
    · exact .inr (.parenthesized hk hmem hh)
  case h_9 hk =>
    cases hf : firstIn? "lambda_literal" p.children with
    | none => exact .inl hd
    | some found =>
      by_cases hfound : d = found
      · exact .inl (by simp [hfound])
      · exact .inr (.annotated hk hf hmem hfound)
  case h_10 hk | h_11 hk =>
    cases hdel : delegationKinds.contains d.kind with
    | true => exact .inr (.supertype (by simp [hk]) hmem hdel)
    | false =>
      refine .inl (List.mem_filter.mpr ⟨hkept (by simp [hasName, hk, namingKinds]), ?_⟩)
      rw [hdel]
      rfl
  case h_12 hk =>
    refine .inl (List.mem_filter.mpr ⟨?_, hnamed⟩)
    rw [hsplit]
    refine mem_eraseP_isIdentifier fun hdid => ?_
    obtain ⟨n, hn, hnid⟩ := hname (by simp [hasName, hk, namingKinds]) hdid
    exact ⟨n, mem_of_mem_namedOf hn, hnid⟩
  case h_13 hk =>
    by_cases hvar : d.kind = "variable_declaration" ∨ d.kind = "="
    · exact .inr (.variable hk hmem hvar)
    · obtain ⟨hdecl, hsign⟩ := not_or.mp hvar
      exact .inl (List.mem_filter.mpr ⟨hmem, by simp [hnamed, hdecl, hsign]⟩)
  case h_14 hk | h_15 hk => exact .inl (hkept (by simp [hasName, hk, namingKinds]))
  · exact .inl hd

/-! ## Where references end up -/

/-- A row that is in view, or stands in a place that is left out. -/
def Reading.Accounted (source : List Char) (p r : Reading) : Prop :=
  p.Views source r ∨ ∃ q d, p.Views source q ∧ q.Omits source d ∧ d.Reaches r

private theorem Reading.Accounted.of_passes {c : Reading} (h : c.Accounted source r)
    (hc : c ∈ p.passes source) : p.Accounted source r := by
  rcases h with h | ⟨q, d, hq, hd, hr⟩
  · exact .inl (.head hc h)
  · exact .inr ⟨q, d, .head hc hq, hd, hr⟩

private theorem Reading.Omits.accounted (h : p.Omits source d) (hr : d.Reaches r) : p.Accounted source r :=
  .inr ⟨p, d, .refl, h, hr⟩

private theorem accounted_navigation {receiver selector : Reading} (hr : r.isIdentifier = true)
    (ih : ∀ c ∈ p.passes source, c.Reaches r → c.Accounted source r)
    (hk : p.kind = "navigation_expression")
    (hnav : navigationParts? p.children = some (receiver, selector)) (hd : d ∈ p.children)
    (hreach : d.Reaches r) : p.Accounted source r := by
  have hpasses : p.passes source = [receiver, selector] := by
    unfold passes
    rw [hk]
    change ((navigationParts? p.children).map _).getD _ = _
    rw [hnav]
    rfl
  have hpassed {c : Reading} (hc : c = receiver ∨ c = selector) (h : c.Reaches r) :
      p.Accounted source r := by
    have hmem : c ∈ p.passes source := by simpa [hpasses] using hc
    exact (ih c hmem h).of_passes hmem
  by_cases hrec : d = receiver
  · exact hpassed (.inl hrec) hreach
  by_cases hsel : d = selector
  · exact hpassed (.inr hsel) hreach
  by_cases hsuffix : d.kind = "navigation_suffix"
  · obtain ⟨e, he, hreach⟩ := hreach.exists_child hr (by rw [hsuffix]; decide)
    by_cases hsel : e = selector
    · exact hpassed (.inr hsel) hreach
    · exact (Omits.selector hk hnav hd hsuffix he hsel).accounted hreach
  · exact (Omits.navigation hk hnav hd hrec hsel hsuffix).accounted hreach

private theorem exists_part (hr : r.isIdentifier = true) (hd : d ∈ p.children) (hnamed : d.named = true)
    (hreach : d.Reaches r) :
    (∃ e ∈ callParts p.children, e.Reaches r) ∨
      ∃ e ∈ d.children, d.kind = "call_suffix" ∧ e.named = false ∧ e.Reaches r := by
  have hpart {e : Reading} (he : e ∈ if d.kind == "call_suffix" then namedOf d.children
      else if d.isComment then [] else [d]) : e ∈ callParts p.children :=
    List.mem_flatMap.mpr ⟨d, List.mem_filter.mpr ⟨hd, hnamed⟩, he⟩
  by_cases hsuffix : d.kind = "call_suffix"
  · obtain ⟨e, he, hreach⟩ := hreach.exists_child hr (by rw [hsuffix]; decide)
    cases hn : e.named with
    | true => exact .inl ⟨e, hpart (by simp [hsuffix, namedOf, he, hn]), hreach⟩
    | false => exact .inr ⟨e, he, hsuffix, hn, hreach⟩
  · have hcomment : d.isComment = false := by
      have h := hreach.not_closed hr
      unfold closedKinds at h
      simp_all [isComment]
    exact .inl ⟨d, hpart (by simp [hsuffix, hcomment]), hreach⟩

private theorem accounted_part {head : Reading} {rest : List Reading} (hr : r.isIdentifier = true)
    (ih : ∀ c ∈ p.passes source, c.Reaches r → c.Accounted source r) (hcalls : p.Calls head rest)
    (hd : d ∈ head :: rest) (hreach : d.Reaches r) : p.Accounted source r := by
  have hpasses : p.passes source = callRows p.children := by
    unfold passes
    rw [hcalls.kind]
    exact if_pos hcalls.call
  have hpassed {c : Reading} (hc : c ∈ head :: (argumentValuesIn rest ++
      (rest.find? fun r => lambdaKinds.contains r.kind).toList)) (h : c.Reaches r) :
      p.Accounted source r := by
    have hmem : c ∈ p.passes source := by
      rw [hpasses, callRows, hcalls.parts]
      exact hc
    exact (ih c hmem h).of_passes hmem
  rcases List.mem_cons.mp hd with rfl | hd
  · exact hpassed (by simp) hreach
  by_cases hlambda : rest.find? (fun r => lambdaKinds.contains r.kind) = some d
  · refine hpassed (List.mem_cons_of_mem _ (List.mem_append_right _ ?_)) hreach
    rw [hlambda]
    exact List.mem_singleton_self d
  by_cases hlist : rest.find? (·.kind == "value_arguments") = some d
  · have hkind : d.kind = "value_arguments" := by simpa using List.find?_some hlist
    obtain ⟨a, ha, hreach⟩ := hreach.exists_child hr (by rw [hkind]; decide)
    by_cases harg : a.named = false ∨ a.kind ≠ "value_argument"
    · exact (Omits.arguments hcalls hlist ha harg).accounted hreach
    simp only [not_or, Bool.not_eq_false, not_not] at harg
    obtain ⟨v, hv, hreach⟩ := hreach.exists_child hr (by rw [harg.2]; decide)
    by_cases hlast : (namedOf a.children).getLast? = some v
    · refine hpassed (List.mem_cons_of_mem _ (List.mem_append_left _ ?_)) hreach
      rw [argumentValuesIn, hlist]
      refine List.mem_filterMap.mpr ⟨a, ?_, hlast⟩
      exact List.mem_filter.mpr ⟨List.mem_filter.mpr ⟨ha, harg.1⟩, by simpa using harg.2⟩
    · exact (Omits.argument hcalls hlist ha hv hlast).accounted hreach
  · exact (Omits.part hcalls hd hlist hlambda).accounted hreach

/-- Every reference at or below a row is in view from there or left out. -/
private theorem Reading.Reaches.accounted (h : p.Reaches r) (hr : r.isIdentifier = true) :
    p.Accounted source r := by
  induction hk : sizeOf p using Nat.strongRecOn generalizing p with
  | ind k ih =>
    subst hk
    rcases h with rfl | h
    · exact .inl .refl
    have hpassed : ∀ c ∈ p.passes source, c.Reaches r → c.Accounted source r :=
      fun c hc hreach => ih (sizeOf c) (sizeOf_lt_of_mem_passes hc) hreach rfl
    rcases h.step source with ⟨d, hd, hreach⟩ | ⟨before, d, after, hsplit, hreach, hnamed, hname⟩
    · exact hd.accounted hreach
    have hmem : d ∈ p.children := by simp [hsplit]
    cases hid : p.isIdentifier with
    | true => exact (Omits.inName (.inl rfl) hid hmem).accounted hreach
    | false =>
      by_cases hcall : p.kind = "call_expression" ∧ p.call.isSome = true
      · rcases exists_part hr hmem hnamed hreach with ⟨e, he, hreach⟩ | ⟨e, he, hs, hn, hreach⟩
        · obtain ⟨head, rest, hparts⟩ := List.exists_cons_of_ne_nil (List.ne_nil_of_mem he)
          exact accounted_part hr hpassed ⟨hcall.1, hcall.2, hparts⟩ (hparts ▸ he) hreach
        · exact (Omits.suffix hcall.1 hmem hs he hn).accounted hreach
      by_cases hnav : p.kind = "navigation_expression" ∧ (navigationParts? p.children).isSome = true
      · obtain ⟨⟨receiver, selector⟩, hparts⟩ := Option.isSome_iff_exists.mp hnav.2
        exact accounted_navigation hr hpassed hnav.1 hparts hmem hreach
      have hplace : d ∈ p.passes source ∨ p.Omits source d := by
        refine mem_passes_or_omits h.not_closed hid hsplit hnamed hname ?_ ?_
        · exact fun hk => by simpa using not_and.mp hcall hk
        · exact fun hk => by simpa using not_and.mp hnav hk
      rcases hplace with hd | hd
      · exact (hpassed d hd hreach).of_passes hd
      · exact hd.accounted hreach

end Positions

/-- A place that is left out of a file's tree: by the root, or by a row in view. -/
def Reading.LeavesOut (source : List Char) (root r : Reading) : Prop :=
  ∃ q d, (q = root ∨ root.InView source q) ∧ q.Omits source d ∧ d.Reaches r

/-- Every identifier row in expression position is visited in the tree, as an identifier with the
same name and span, unless it stands in a place that is left out. -/
theorem visits_reference_or_leaves_out (source : String) (root : Row) (r : Reading)
    (hr : (root.read source.toList).InExpression r) (hid : r.isIdentifier = true) :
    (∃ id ∈ (layout source root).tree.walk (layout source root).tree.root,
      (layout source root).tree.shape id =
          .identifier (String.ofList (pieceOf source.toList r.span)) ∧
        (layout source root).tree.span id = r.span) ∨
      (root.read source.toList).LeavesOut source.toList r := by
  obtain ⟨d, hd, hreach⟩ := hr.exists_child
  cases hn : d.named with
  | false => exact .inr ⟨_, d, .inl rfl, .anonymous hd hn, hreach⟩
  | true =>
    have htop : d ∈ namedOf (root.read source.toList).children := List.mem_filter.mpr ⟨hd, hn⟩
    rcases hreach.accounted hid with hv | ⟨q, o, hq, ho, hreach⟩
    · left
      exact (visits_identifier_iff_inView source root (r.word source.toList)).mpr
        ⟨r, ⟨d, htop, hv⟩, hid, rfl⟩
    · exact .inr ⟨q, o, .inr ⟨d, htop, hq⟩, ho, hreach⟩

def scopeCall : String := "f(GlobalScope)"

def scopeCallRows : Row :=
  .over "source_file" 0 14 [.over "call_expression" 0 14 [.over "identifier" 0 1 [],
    .over "value_arguments" 1 14 [.token "(" 1 2,
      .over "value_argument" 2 13 [.over "identifier" 2 13 []], .token ")" 13 14]]]

def scopeCallReference : Reading := (Row.over "identifier" 2 13 []).read scopeCall.toList

theorem visits_reference_scopeCall :
    (scopeCallRows.read scopeCall.toList).InExpression scopeCallReference ∧
    scopeCallReference.isIdentifier = true ∧
    ((∃ id ∈ (layout scopeCall scopeCallRows).tree.walk (layout scopeCall scopeCallRows).tree.root,
      (layout scopeCall scopeCallRows).tree.shape id =
          .identifier (String.ofList (pieceOf scopeCall.toList scopeCallReference.span)) ∧
        (layout scopeCall scopeCallRows).tree.span id = scopeCallReference.span) ∨
      (scopeCallRows.read scopeCall.toList).LeavesOut scopeCall.toList scopeCallReference) := by
  have hvalue : InExpression _ scopeCallReference :=
    @InExpression.child ((Row.over "value_argument" 2 13 [.over "identifier" 2 13 []]).read _) _ [] []
      (by decide) rfl (by decide)
  have hr : (scopeCallRows.read scopeCall.toList).InExpression scopeCallReference :=
    .deeper (by decide) (.head _) (.deeper (by decide) (.tail _ (.head _))
      (.deeper (by decide) (.tail _ (.head _)) hvalue))
  exact ⟨hr, by decide, visits_reference_or_leaves_out scopeCall scopeCallRows _ hr (by decide)⟩

def scopeClass : String := "class B : C(GlobalScope)\n"

def scopeClassRows : Row :=
  .over "source_file" 0 25 [.over "class_declaration" 0 24 [.token "class" 0 5,
    .over "identifier" 6 7 [], .token ":" 8 9,
    .over "delegation_specifiers" 10 24 [.over "delegation_specifier" 10 24 [
      .over "constructor_invocation" 10 24 [.over "user_type" 10 11 [.over "identifier" 10 11 []],
        .over "value_arguments" 11 24 [.token "(" 11 12,
          .over "value_argument" 12 23 [.over "identifier" 12 23 []], .token ")" 23 24]]]]]]

def scopeClassReference : Reading := (Row.over "identifier" 12 23 []).read scopeClass.toList

/-- Without any error in the file, a reference in the supertypes of a class is not visited. -/
theorem supertype_reference_left_out :
    scopeClassRows.WellPlaced scopeClass.toList ∧
    firstIn? "ERROR" [scopeClassRows.read scopeClass.toList] = none ∧
    (scopeClassRows.read scopeClass.toList).InExpression scopeClassReference ∧
    scopeClassReference.isIdentifier = true ∧
    scopeClassReference.word scopeClass.toList = ⟨"GlobalScope", ⟨12, 23⟩⟩ ∧
    ∀ id ∈ (layout scopeClass scopeClassRows).tree.walk (layout scopeClass scopeClassRows).tree.root,
      (layout scopeClass scopeClassRows).tree.shape id ≠ .identifier "GlobalScope" := by
  have hvalue : InExpression _ scopeClassReference :=
    @InExpression.child ((Row.over "value_argument" 12 23 [.over "identifier" 12 23 []]).read _) _ [] []
      (by decide) rfl (by decide)
  refine ⟨by decide +kernel, by decide +kernel, ?_, by decide, by decide +kernel, by decide +kernel⟩
  refine .deeper (by decide) (.head _) (.deeper (by decide) (.tail _ (.tail _ (.tail _ (.head _)))) ?_)
  exact .deeper (by decide) (.head _) (.deeper (by decide) (.head _)
    (.deeper (by decide) (.tail _ (.head _)) (.deeper (by decide) (.tail _ (.head _)) hvalue)))

end CoroutineCheck.Kotlin

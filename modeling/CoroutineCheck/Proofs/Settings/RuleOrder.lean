import CoroutineCheck.Proofs.Settings.Defaults
import CoroutineCheck.Proofs.Toml.Keys
import CoroutineCheck.Rules.Registry
/-!
# The order of rule settings

The settings of a rule are looked up by its id, exactly if possible. Otherwise the first key that is the
id in another case counts, and which one is first depends on the order in which the settings are listed.
So an answer is the same for all orders exactly if the id is a key, or all such keys agree in the answer.
-/
namespace CoroutineCheck

namespace Settings

def listing (s : Settings) (rules : List (String × RuleSettings)) : Settings :=
  { s with rules := rules }

def namesakes (s : Settings) (id : String) : List (String × RuleSettings) :=
  s.rules.filter fun r => Text.sameIgnoringCase r.1.toList id.toList

/-- An answer about an id is settled: the id is a key, or all its namesakes give the same answer. -/
def Agrees {β : Type} (s : Settings) (id : String) (answer : RuleSettings → β) : Prop :=
  id ∈ s.rules.map (·.1) ∨ ∀ a ∈ s.namesakes id, ∀ b ∈ s.namesakes id, answer a.2 = answer b.2

/-- What is read off the settings is the same for any two orders of the rules. -/
def InAnyOrder {β : Type} (s : Settings) (read : Settings → β) : Prop :=
  ∀ rs rs', rs.Perm s.rules → rs'.Perm s.rules → read (s.listing rs) = read (s.listing rs')

section Orders

variable {β : Type} {s : Settings} {id : String} {answer : RuleSettings → β}

private theorem rule?_eq (s : Settings) (id : String) : s.rule? id = (s.rules.lookup id).or
    ((s.rules.find? fun r => Text.sameIgnoringCase r.1.toList id.toList).map (·.2)) := by
  unfold rule?
  cases s.rules.lookup id <;> rfl

private theorem rule?_of_not_mem (h : id ∉ s.rules.map (·.1)) : s.rule? id =
    (s.rules.find? fun r => Text.sameIgnoringCase r.1.toList id.toList).map (·.2) := by
  have hnone : s.rules.lookup id = none := by
    rw [lookup_eq_find?, Option.map_eq_none_iff, List.find?_eq_none]
    intro r hr hid
    exact h (List.mem_map.mpr ⟨r, hr, beq_iff_eq.mp hid⟩)
  rw [rule?_eq, hnone, Option.none_or]

private theorem isSome_lookup_of_mem (h : id ∈ s.rules.map (·.1)) : ∃ r, s.rules.lookup id = some r := by
  obtain ⟨r, hr, hid⟩ := List.mem_map.mp h
  have hfound : (s.rules.find? (·.1 == id)).isSome = true :=
    List.find?_isSome.mpr ⟨r, hr, beq_iff_eq.mpr hid⟩
  rw [lookup_eq_find?]
  exact Option.isSome_iff_exists.mp (by rwa [Option.isSome_map])

private theorem rule?_listing (hkeys : (s.rules.map (·.1)).Nodup) (h : s.Agrees id answer)
    {rs : List (String × RuleSettings)} (hrs : rs.Perm s.rules) :
    ((s.listing rs).rule? id).map answer = (s.rule? id).map answer := by
  by_cases hid : id ∈ s.rules.map (·.1)
  · obtain ⟨r, hr⟩ := isSome_lookup_of_mem hid
    have hrs' : (s.listing rs).rules.lookup id = some r :=
      (lookup_eq_of_perm hkeys hrs.symm id).symm.trans hr
    rw [rule?_eq, rule?_eq, hr, hrs', Option.some_or, Option.some_or]
  · have hid' : id ∉ (s.listing rs).rules.map (·.1) := fun hmem => hid ((hrs.map _).mem_iff.mp hmem)
    have hagree := h.resolve_left hid
    rw [rule?_of_not_mem hid, rule?_of_not_mem hid', Option.map_map, Option.map_map]
    refine (find?_map_of_perm hrs.symm ?_).symm
    intro a ha b hb hsame hsame'
    exact hagree a (List.mem_filter.mpr ⟨ha, hsame⟩) b (List.mem_filter.mpr ⟨hb, hsame'⟩)

/-- Unless the id is a key, each of its namesakes is what is found in some order. -/
private theorem exists_rule?_listing (hid : id ∉ s.rules.map (·.1)) {a : String × RuleSettings}
    (ha : a ∈ s.namesakes id) : ∃ rs, rs.Perm s.rules ∧ (s.listing rs).rule? id = some a.2 := by
  obtain ⟨hmem, hsame⟩ := List.mem_filter.mp ha
  obtain ⟨front, back, hrules⟩ := List.append_of_mem hmem
  have hperm : (a :: (front ++ back)).Perm s.rules := hrules ▸ List.perm_middle.symm
  have hid' : id ∉ (s.listing (a :: (front ++ back))).rules.map (·.1) :=
    fun hmem => hid ((hperm.map _).mem_iff.mp hmem)
  refine ⟨_, hperm, ?_⟩
  rw [rule?_of_not_mem hid']
  simp only [listing, List.find?_cons, hsame, Option.map_some]

private theorem inAnyOrder_iff_agrees (hkeys : (s.rules.map (·.1)).Nodup) {read : Settings → β}
    {otherwise : β} (hread : ∀ t, read t = ((t.rule? id).map answer).getD otherwise) :
    s.InAnyOrder read ↔ s.Agrees id answer := by
  constructor
  · intro h
    by_cases hid : id ∈ s.rules.map (·.1)
    · exact .inl hid
    · refine .inr fun a ha b hb => ?_
      -- Each of the two can be listed first.
      obtain ⟨rs, hrs, hfirst⟩ := exists_rule?_listing hid ha
      obtain ⟨rs', hrs', hsecond⟩ := exists_rule?_listing hid hb
      have hsame := h rs rs' hrs hrs'
      rw [hread, hread, hfirst, hsecond] at hsame
      exact hsame
  · intro h rs rs' hrs hrs'
    rw [hread, hread, rule?_listing hkeys h hrs, rule?_listing hkeys h hrs']

private theorem rule?_eq_getD (s : Settings) (id : String) :
    s.rule? id = ((s.rule? id).map some).getD none := by
  cases s.rule? id <;> rfl

private theorem isEnabled_eq_getD (s : Settings) (id : String) :
    s.isEnabled id = ((s.rule? id).map fun r => r.enabled.getD true).getD true := by
  unfold isEnabled
  cases s.rule? id <;> rfl

private theorem severity?_eq_getD (s : Settings) (id : String) :
    s.severity? id = ((s.rule? id).map RuleSettings.severity).getD none := by
  unfold severity?
  cases s.rule? id <;> rfl

end Orders

/-! ## Rules of a document -/

private theorem keys_of_mapM {es : List (String × Toml.Value)} {rs : List (String × RuleSettings)}
    (h : es.mapM (fun e => (ruleOf? e.2).map (Prod.mk e.1)) = some rs) : rs.map (·.1) = es.map (·.1) := by
  induction es generalizing rs with
  | nil =>
    cases h
    rfl
  | cons e es ih =>
    rw [List.mapM_cons] at h
    obtain ⟨r, hr, h⟩ := Option.bind_eq_some_iff.mp h
    obtain ⟨rest, hrest, h⟩ := Option.bind_eq_some_iff.mp h
    obtain ⟨settings, _, rfl⟩ := Option.map_eq_some_iff.mp hr
    cases h
    rw [List.map_cons, List.map_cons, ih hrest]

private theorem nodup_keys_rules? {v : Toml.Value} {rs : List (String × RuleSettings)} (hv : v.Distinct)
    (h : rules? v = some rs) : (rs.map (·.1)).Nodup := by
  obtain ⟨es, hes, hrules⟩ := Option.bind_eq_some_iff.mp h
  rw [keys_of_mapM hrules]
  cases hv with
  | table hkeys =>
    cases hes
    exact hkeys
  | datetime =>
    cases hes
    exact List.nodup_singleton _
  | _ => cases hes

private theorem nodup_keys_read? {text : String} {s : Settings} (h : read? text = some s) :
    (s.rules.map (·.1)).Nodup := by
  obtain ⟨es, hes, _, _, hrules⟩ := read?_eq_some h
  cases hlookup : es.lookup "rules" with
  | none =>
    rw [hlookup] at hrules
    have hnil : s.rules = [] := hrules
    rw [hnil]
    exact List.nodup_nil
  | some v =>
    rw [hlookup] at hrules
    cases Toml.distinct_read? hes with
    | table _ hvalues => exact nodup_keys_rules? (hvalues _ (mem_of_lookup_eq_some hlookup)) hrules

/-- Whether the look-ups of an issue depend on the order of the rules. A document lists its rules under
different keys. Then each answer is the same for any two orders exactly if the id is a key, or all keys that
are the id up to case agree in that answer; and if the supertype policies of all rules are settled in this
way, so are the detectors. -/
theorem look_ups_in_any_order_iff (s : Settings) (id : String) :
    (∀ text, read? text = some s → (s.rules.map (·.1)).Nodup) ∧
    ((s.rules.map (·.1)).Nodup →
      (s.InAnyOrder (·.rule? id) ↔ s.Agrees id some) ∧
      (s.InAnyOrder (·.isEnabled id) ↔ s.Agrees id fun r => r.enabled.getD true) ∧
      (s.InAnyOrder (·.severity? id) ↔ s.Agrees id RuleSettings.severity) ∧
      (s.InAnyOrder (·.policy id) ↔ s.Agrees id RuleSettings.supertypePolicy) ∧
      ((∀ r ∈ Rules.all, s.Agrees r.issue.id RuleSettings.supertypePolicy) →
        s.InAnyOrder Rules.configured ∧ ∀ names, s.InAnyOrder (Rules.selected · names))) := by
  refine ⟨fun text => nodup_keys_read?, ?_⟩
  intro hkeys
  have hpolicy (id : String) :
      s.InAnyOrder (·.policy id) ↔ s.Agrees id RuleSettings.supertypePolicy :=
    inAnyOrder_iff_agrees hkeys fun _ => rfl
  refine ⟨inAnyOrder_iff_agrees hkeys fun t => t.rule?_eq_getD id,
    inAnyOrder_iff_agrees hkeys fun t => t.isEnabled_eq_getD id,
    inAnyOrder_iff_agrees hkeys fun t => t.severity?_eq_getD id, hpolicy id, ?_⟩
  intro h
  have hconfigured {rs rs' : List (String × RuleSettings)} (hrs : rs.Perm s.rules)
      (hrs' : rs'.Perm s.rules) {r : Rules.Rule} (hr : r ∈ Rules.all) :
      r.configured (s.listing rs) = r.configured (s.listing rs') := by
    unfold Rules.Rule.configured
    exact congrArg r.detector ((hpolicy r.issue.id).mpr (h r hr) rs rs' hrs hrs')
  constructor
  · intro rs rs' hrs hrs'
    exact List.map_congr_left fun r hr => hconfigured hrs hrs' hr
  · intro names rs rs' hrs hrs'
    exact List.map_congr_left fun r hr => hconfigured hrs hrs' (List.mem_filter.mp hr).1

def exactAndLower : Settings :=
  { standard with rules := [("globalscopeusage", ⟨some false, none, []⟩),
      ("GlobalScopeUsage", ⟨some true, some .info, []⟩)] }

def exactAndLowerText : String :=
  "[rules.globalscopeusage]\nenabled = false\n" ++
    "[rules]\nGlobalScopeUsage = \x7benabled = true, severity = \"info\"\x7d\n"

theorem look_ups_in_any_order_exactAndLower :
    (∃ s, read? exactAndLowerText = some s ∧
      s.rules.map (·.1) = exactAndLower.rules.map (·.1) ∧ (s.rules.map (·.1)).Nodup) ∧
    (exactAndLower.rules.map (·.1)).Nodup ∧
    (exactAndLower.namesakes "GlobalScopeUsage").map (·.2.enabled) = [some false, some true] ∧
    exactAndLower.InAnyOrder (·.rule? "GlobalScopeUsage") ∧
    exactAndLower.InAnyOrder (·.isEnabled "GlobalScopeUsage") ∧
    exactAndLower.InAnyOrder (·.severity? "GlobalScopeUsage") ∧
    exactAndLower.InAnyOrder Rules.configured := by
  have hread : (read? exactAndLowerText).map (fun s => s.rules.map (·.1)) =
      some (exactAndLower.rules.map (·.1)) := by
    decide +kernel
  obtain ⟨s, hs, hsame⟩ := Option.map_eq_some_iff.mp hread
  have hkeys : (exactAndLower.rules.map (·.1)).Nodup := by decide
  have hid : "GlobalScopeUsage" ∈ exactAndLower.rules.map (·.1) := by decide
  obtain ⟨hrule, henabled, hseverity, _, hconfigured⟩ :=
    (look_ups_in_any_order_iff exactAndLower "GlobalScopeUsage").2 hkeys
  have hdocument := (look_ups_in_any_order_iff s "GlobalScopeUsage").1 _ hs
  refine ⟨⟨s, hs, hsame, hdocument⟩, hkeys, by decide, hrule.mpr (.inl hid), henabled.mpr (.inl hid),
    hseverity.mpr (.inl hid), ?_⟩
  refine (hconfigured fun r hr => ?_).1
  simp only [Rules.all, List.mem_cons, List.not_mem_nil, or_false] at hr
  rcases hr with rfl | rfl
  · exact .inl hid
  · -- No key is the other rule's id, in whatever case.
    have hnone : exactAndLower.namesakes JobInBuilderUsage.issue.id = [] := by
      rw [← List.length_eq_zero_iff]
      decide
    refine .inr ?_
    simp [hnone]

def lowerAndUpper : Settings :=
  { standard with rules := [("globalscopeusage",
        ⟨some false, some .error, [("supertype_policy", .string "transitive")]⟩),
      ("GLOBALSCOPEUSAGE", ⟨none, none, []⟩)] }

/-- Listed in one order the rule does not run, in the other it does; its severity and its policy change as
well. -/
theorem look_ups_depend_on_order :
    (lowerAndUpper.rules.map (·.1)).Nodup ∧
    lowerAndUpper.rules.reverse.Perm lowerAndUpper.rules ∧
    lowerAndUpper.isEnabled "GlobalScopeUsage" = false ∧
    (lowerAndUpper.listing lowerAndUpper.rules.reverse).isEnabled "GlobalScopeUsage" = true ∧
    lowerAndUpper.severity? "GlobalScopeUsage" = some .error ∧
    (lowerAndUpper.listing lowerAndUpper.rules.reverse).severity? "GlobalScopeUsage" = none ∧
    lowerAndUpper.policy "GlobalScopeUsage" = .transitive ∧
    (lowerAndUpper.listing lowerAndUpper.rules.reverse).policy "GlobalScopeUsage" = .direct ∧
    ¬ lowerAndUpper.InAnyOrder (·.rule? "GlobalScopeUsage") := by
  have hfirst : lowerAndUpper.isEnabled "GlobalScopeUsage" = false := by decide
  have hlast : (lowerAndUpper.listing lowerAndUpper.rules.reverse).isEnabled "GlobalScopeUsage" = true := by
    decide
  have hperm := List.reverse_perm lowerAndUpper.rules
  refine ⟨by decide, hperm, hfirst, hlast, by decide, by decide, by decide, by decide, ?_⟩
  intro h
  have hsame := h lowerAndUpper.rules lowerAndUpper.rules.reverse (.refl _) hperm
  have henabled : lowerAndUpper.isEnabled "GlobalScopeUsage" =
      (lowerAndUpper.listing lowerAndUpper.rules.reverse).isEnabled "GlobalScopeUsage" := by
    unfold isEnabled
    exact congrArg (fun r => (Option.bind r RuleSettings.enabled).getD true) hsame
  rw [hfirst, hlast] at henabled
  cases henabled

end Settings
end CoroutineCheck

import CoroutineCheck.Settings.Document
/-!
# Defaults of settings

A field that a document does not set has a default. Standard settings give one for each field, and a
section that is there gives one for each of its fields. The two are the same for all fields but the
patterns to leave out: a section without them leaves nothing out.
-/
namespace CoroutineCheck.Settings

def scopeKeys : List String := ["root", "exclude", "respect_gitignore"]

def projectKeys : List String := ["dependencies", "discover_gradle"]

/-- What a document gives to a field of a section, if the section is there and sets the field. -/
def given? (es : List (String × Toml.Value)) (name : String) (keys : List String) (key : String) :
    Option Toml.Value :=
  (es.lookup name).bind fun v => (fields? keys v).bind fun fs => fs.lookup key

/-- The value of a field: what can be read off what is given, or a default if nothing is given. -/
def Takes {α : Type} (given : Option Toml.Value) (read : Toml.Value → Option α) (otherwise value : α) :
    Prop :=
  given.elim (value = otherwise) fun v => read v = some value

section Fields

variable {α : Type} {es : List (String × Toml.Value)} {key : String} {read : Toml.Value → Option α}
  {otherwise value : α}

private theorem field?_eq_some_iff :
    field? es key read otherwise = some value ↔ Takes (es.lookup key) read otherwise value := by
  unfold field? Takes
  cases es.lookup key with
  | none => simp [eq_comm]
  | some v => rfl

private theorem scope?_eq_some {v : Toml.Value} {scope : Scope} (h : scope? v = some scope) :
    ∃ fs, fields? scopeKeys v = some fs ∧
      Takes (fs.lookup "root") (fun v => v.string?.map Path.mk) ⟨"."⟩ scope.root ∧
      Takes (fs.lookup "exclude") Toml.Value.strings? [] scope.exclude ∧
      Takes (fs.lookup "respect_gitignore") Toml.Value.boolean? true scope.respectIgnoreFiles := by
  obtain ⟨fs, hfs, h⟩ := Option.bind_eq_some_iff.mp h
  obtain ⟨root, hroot, h⟩ := Option.bind_eq_some_iff.mp h
  obtain ⟨exclude, hexclude, h⟩ := Option.bind_eq_some_iff.mp h
  obtain ⟨respect, hrespect, h⟩ := Option.bind_eq_some_iff.mp h
  cases h
  refine ⟨fs, hfs, ?_, field?_eq_some_iff.mp hexclude, field?_eq_some_iff.mp hrespect⟩
  have hroot := field?_eq_some_iff.mp hroot
  unfold Takes at hroot ⊢
  cases hgiven : fs.lookup "root" with
  | none =>
    rw [hgiven] at hroot
    exact congrArg Path.mk hroot
  | some v =>
    rw [hgiven] at hroot
    exact congrArg (Option.map Path.mk) hroot

private theorem project?_eq_some {v : Toml.Value} {project : ProjectFacts} (h : project? v = some project) :
    ∃ fs, fields? projectKeys v = some fs ∧
      Takes (fs.lookup "dependencies") Toml.Value.strings? [] project.dependencies ∧
      Takes (fs.lookup "discover_gradle") Toml.Value.boolean? true project.discoverGradle := by
  obtain ⟨fs, hfs, h⟩ := Option.bind_eq_some_iff.mp h
  obtain ⟨dependencies, hdependencies, h⟩ := Option.bind_eq_some_iff.mp h
  obtain ⟨discover, hdiscover, h⟩ := Option.bind_eq_some_iff.mp h
  cases h
  exact ⟨fs, hfs, field?_eq_some_iff.mp hdependencies, field?_eq_some_iff.mp hdiscover⟩

private theorem given?_eq {name : String} {keys : List String} {v : Toml.Value}
    {fs : List (String × Toml.Value)}
    (hv : es.lookup name = some v) (hfs : fields? keys v = some fs) (key : String) :
    given? es name keys key = fs.lookup key := by
  rw [given?, hv, Option.bind_some, hfs, Option.bind_some]

private theorem given?_eq_none {name : String} {keys : List String} (h : es.lookup name = none)
    (key : String) :
    given? es name keys key = none := by
  rw [given?, h, Option.bind_none]

private theorem takes_scope {scope : Scope} (h : Takes (es.lookup "analyzer") scope? standard.scope scope) :
    Takes (given? es "analyzer" scopeKeys "root") (fun v => v.string?.map Path.mk) standard.scope.root
      scope.root ∧
    Takes (given? es "analyzer" scopeKeys "respect_gitignore") Toml.Value.boolean?
      standard.scope.respectIgnoreFiles scope.respectIgnoreFiles ∧
    Takes (given? es "analyzer" scopeKeys "exclude") Toml.Value.strings?
      (if (es.lookup "analyzer").isSome then [] else standard.scope.exclude) scope.exclude := by
  cases hanalyzer : es.lookup "analyzer" with
  | none =>
    rw [hanalyzer] at h
    obtain rfl : scope = standard.scope := h
    simp only [given?_eq_none hanalyzer]
    exact ⟨rfl, rfl, rfl⟩
  | some v =>
    rw [hanalyzer] at h
    obtain ⟨fs, hfs, hroot, hexclude, hrespect⟩ := scope?_eq_some h
    simp only [given?_eq hanalyzer hfs]
    exact ⟨hroot, hrespect, hexclude⟩

private theorem takes_project {project : ProjectFacts}
    (h : Takes (es.lookup "project") project? standard.project project) :
    Takes (given? es "project" projectKeys "dependencies") Toml.Value.strings?
      standard.project.dependencies project.dependencies ∧
    Takes (given? es "project" projectKeys "discover_gradle") Toml.Value.boolean?
      standard.project.discoverGradle project.discoverGradle := by
  cases hproject : es.lookup "project" with
  | none =>
    rw [hproject] at h
    obtain rfl : project = standard.project := h
    simp only [given?_eq_none hproject]
    exact ⟨rfl, rfl⟩
  | some v =>
    rw [hproject] at h
    obtain ⟨fs, hfs, hdependencies, hdiscover⟩ := project?_eq_some h
    simp only [given?_eq hproject hfs]
    exact ⟨hdependencies, hdiscover⟩

theorem read?_eq_some {text : String} {s : Settings} (h : read? text = some s) :
    ∃ es, Toml.read? text = some es ∧
      Takes (es.lookup "analyzer") scope? standard.scope s.scope ∧
      Takes (es.lookup "project") project? standard.project s.project ∧
      Takes (es.lookup "rules") rules? [] s.rules := by
  obtain ⟨es, hes, h⟩ := Option.bind_eq_some_iff.mp h
  obtain ⟨failOn, _, h⟩ := Option.bind_eq_some_iff.mp h
  obtain ⟨scope, hscope, h⟩ := Option.bind_eq_some_iff.mp h
  obtain ⟨project, hproject, h⟩ := Option.bind_eq_some_iff.mp h
  obtain ⟨rules, hrules, h⟩ := Option.bind_eq_some_iff.mp h
  cases h
  exact ⟨es, hes, field?_eq_some_iff.mp hscope, field?_eq_some_iff.mp hproject,
    field?_eq_some_iff.mp hrules⟩

end Fields

/-- What the fields of the two sections are, for every document that can be read. A field that is set has
the value that is given; one that is not set has its standard value, whether the section is there or not.
Only the patterns to leave out have another default in a section that is there: none. -/
theorem read?_takes_defaults {text : String} {s : Settings} (h : read? text = some s) :
    ∃ es, Toml.read? text = some es ∧
      Takes (given? es "analyzer" scopeKeys "root") (fun v => v.string?.map Path.mk)
        standard.scope.root s.scope.root ∧
      Takes (given? es "analyzer" scopeKeys "respect_gitignore") Toml.Value.boolean?
        standard.scope.respectIgnoreFiles s.scope.respectIgnoreFiles ∧
      Takes (given? es "project" projectKeys "dependencies") Toml.Value.strings?
        standard.project.dependencies s.project.dependencies ∧
      Takes (given? es "project" projectKeys "discover_gradle") Toml.Value.boolean?
        standard.project.discoverGradle s.project.discoverGradle ∧
      Takes (given? es "analyzer" scopeKeys "exclude") Toml.Value.strings?
        (if (es.lookup "analyzer").isSome then [] else standard.scope.exclude) s.scope.exclude := by
  obtain ⟨es, hes, hscope, hproject, _⟩ := read?_eq_some h
  obtain ⟨hroot, hrespect, hexclude⟩ := takes_scope hscope
  obtain ⟨hdependencies, hdiscover⟩ := takes_project hproject
  exact ⟨es, hes, hroot, hrespect, hdependencies, hdiscover, hexclude⟩

def someFields : String :=
  "[analyzer]\nexclude = [\"gen/**\"]\n[project]\ndiscover_gradle = false\n"

theorem read?_takes_defaults_someFields :
    ∃ s, read? someFields = some s ∧ s.scope = ⟨⟨"."⟩, ["gen/**"], true⟩ ∧ s.project = ⟨[], false⟩ ∧
      ∃ es, Toml.read? someFields = some es ∧
        Takes (given? es "analyzer" scopeKeys "root") (fun v => v.string?.map Path.mk)
          standard.scope.root s.scope.root ∧
        Takes (given? es "analyzer" scopeKeys "exclude") Toml.Value.strings?
          (if (es.lookup "analyzer").isSome then [] else standard.scope.exclude) s.scope.exclude ∧
        Takes (given? es "project" projectKeys "dependencies") Toml.Value.strings?
          standard.project.dependencies s.project.dependencies := by
  have hread : (read? someFields).map (fun s => (s.scope, s.project)) =
      some (⟨⟨"."⟩, ["gen/**"], true⟩, ⟨[], false⟩) := by
    decide +kernel
  obtain ⟨s, hs, hparts⟩ := Option.map_eq_some_iff.mp hread
  obtain ⟨es, hes, hroot, _, hdependencies, _, hexclude⟩ := read?_takes_defaults hs
  exact ⟨s, hs, (Prod.mk.inj hparts).1, (Prod.mk.inj hparts).2, es, hes, hroot, hexclude, hdependencies⟩

def otherField : String := "[analyzer]\nrespect_gitignore = true\n"

/-- A section that does not set the patterns to leave out removes the standard ones, though all it says
is standard as well. -/
theorem read?_drops_standard_patterns :
    (read? "").map (·.scope.exclude) = some standard.scope.exclude ∧
    ((Toml.read? otherField).map fun es => (given? es "analyzer" scopeKeys "exclude").isNone) =
      some true ∧
    (read? otherField).map (·.scope.exclude) = some [] ∧
    standard.scope.exclude ≠ [] := by
  decide +kernel

end CoroutineCheck.Settings

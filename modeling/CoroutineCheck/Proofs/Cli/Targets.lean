import CoroutineCheck.Proofs.Analysis.Roots
import CoroutineCheck.Proofs.Cli.Repairs
import CoroutineCheck.Proofs.Cli.SettingsSearch
import CoroutineCheck.Proofs.FileTree.ExcludePatterns
/-!
# Targets

A check depends on the place of its target. How the path of the target is written matters in three ways:
a path from the working directory hides the settings above, a bare path to a file in the working
directory has no directory to look for build files in, and a pattern for excluded paths may match `.`.
-/
namespace CoroutineCheck

namespace Gradle

variable {d : Disk} {p q : Path} {place : List String}

private theorem coordinatesOf_toOption_congr (c : Content) (h : p.fileName? = q.fileName?) :
    (coordinatesOf p c).toOption = (coordinatesOf q c).toOption := by
  unfold coordinatesOf
  rw [h]
  cases q.fileName?.bind BuildFile.ofName? with
  | none => rfl
  | some kind => cases c.text? <;> rfl

/-- The dependencies below a directory do not depend on how its path is written. -/
theorem discover_toOption_congr (hproper : d.tree.isProper = true) (hp : Walk.SeenByName p)
    (hq : Walk.SeenByName q) (hp' : p.text ≠ "-") (hq' : q.text ≠ "-")
    (hpp : d.locate? p = some place) (hqp : d.locate? q = some place)
    (hdir : FileTree.kindAt place d.tree = some true) :
    (discover d p).toOption = (discover d q).toOption := by
  unfold discover
  rw [Disk.walk_eq hproper hp hp' hpp, Disk.walk_eq hproper hq hq' hqp]
  cases hfs : d.filesAt ⟨true, true⟩ place with
  | error e => rfl
  | ok fs =>
    have hcoordinates : ∀ f ∈ fs, (coordinatesOf (p.down f.1) f.2).toOption =
        (coordinatesOf (q.down f.1) f.2).toOption := by
      intro f hf
      have hat := Disk.at?_of_mem_filesAt hproper hfs hf
      have hnames : ∀ n ∈ f.1, Path.isName n = true :=
        fun n hn => (FileTree.isProper_at? hproper hat).1 n (List.mem_append_right _ hn)
      -- What is found is a file, and so not the directory itself.
      have hne : f.1 ≠ [] := by
        intro hnil
        rw [hnil, List.append_nil] at hat
        simp [FileTree.kindAt, hat, FileTree.isDir] at hdir
      apply coordinatesOf_toOption_congr
      rw [Path.fileName?_down hnames, Path.fileName?_down hnames]
      cases hlast : f.1.getLast? with
      | none => exact absurd (List.getLast?_eq_none_iff.mp hlast) hne
      | some last => rfl
    change ((fs.map fun f => (p.down f.1, f.2)).mapM (fun f => coordinatesOf f.1 f.2) >>= fun found =>
        pure ((distinct found.flatten).map Dependency.mk)).toOption =
      ((fs.map fun f => (q.down f.1, f.2)).mapM (fun f => coordinatesOf f.1 f.2) >>= fun found =>
        pure ((distinct found.flatten).map Dependency.mk)).toOption
    rw [toOption_bind, toOption_bind, toOption_mapM, toOption_mapM, List.mapM_map, List.mapM_map]
    exact congrArg (Option.bind · _) (mapM_congr hcoordinates)

end Gradle

def Spelling.origin (d : Disk) : Spelling → Path
  | bare => d.directoryPath
  | dotted => d.directoryPath.join ⟨"."⟩
  | full => d.directoryPath

namespace Target

variable {d : Disk} {names : List String} (h : Target d names)
include h

private theorem kindAt_home : FileTree.kindAt (d.directory ++ d.homeOf names) d.tree = some true := by
  unfold Disk.homeOf
  split
  case isTrue =>
    have hat : (FileTree.at? (d.directory ++ names.dropLast ++ [names.getLast h.ne_nil])
        d.tree).isSome = true := by
      rw [List.append_assoc, List.dropLast_append_getLast]
      exact h.isSome_at?
    exact FileTree.kindAt_of_append hat (by simp)
  case isFalse hfile =>
    obtain ⟨u, hu⟩ := Option.isSome_iff_exists.mp h.isSome_at?
    cases u with
    | file c => simp [FileTree.contentAt, hu, FileTree.content?] at hfile
    | dir es => simp [FileTree.kindAt, hu, FileTree.isDir]

private theorem isName_home : ∀ n ∈ d.directory ++ d.homeOf names, Path.isName n = true :=
  fun n hn => h.isName n (((List.prefix_append_right_inj _).mpr (d.homeOf_on_way names)).subset hn)

private theorem isName_lead_append_home (s : Spelling) :
    ∀ n ∈ s.lead d ++ d.homeOf names, Path.isName n = true := by
  intro n hn
  apply h.isName_home
  rw [← s.base_append_lead_append]
  exact List.mem_append_right _ hn

private theorem locate?_home (s : Spelling) (hs : s = .bare → d.homeOf names ≠ []) :
    d.locate? (s.start.down (s.lead d ++ d.homeOf names)) =
      some (d.directory ++ d.homeOf names) := by
  have hstart : d.start? (s.start.down (s.lead d ++ d.homeOf names)) =
      some (s.base d ++ (s.lead d ++ d.homeOf names)) := by
    apply h.start?_down s
    rw [s.base_append_lead_append]
    exact (List.prefix_append_right_inj _).mpr (d.homeOf_on_way names)
  have htext : (s.start.down (s.lead d ++ d.homeOf names)).text.toList ≠ [] := by
    apply Path.toList_down_ne_nil (h.isName_lead_append_home s)
    cases s with
    | bare => exact .inr (hs rfl)
    | dotted => exact .inl (by decide)
    | full => exact .inl (by decide)
  rw [s.base_append_lead_append] at hstart
  exact Disk.locate?_of_start? htext hstart h.kindAt_home

private theorem seenByName_home (s : Spelling) (hs : s = .bare → d.homeOf names ≠ []) :
    Walk.SeenByName (s.start.down (s.lead d ++ d.homeOf names)) := by
  have hnames := h.isName_lead_append_home s
  cases s with
  | bare =>
    rw [Spelling.start, Spelling.lead, List.nil_append] at *
    rw [Path.down_empty hnames (hs rfl)]
    exact .of_front (Walk.head?_front_ofNames hnames (hs rfl))
      (Path.toList_ofNames_ne_nil hnames (hs rfl))
  | dotted => exact .dot hnames
  | full =>
    have htext : Spelling.full.start.text.toList ≠ [] := by decide
    refine .of_front ?_ (Path.toList_down_ne_nil hnames (.inl htext))
    rw [Path.head?_front_down hnames htext]
    decide

private theorem text_home_ne (s : Spelling) (hs : s = .bare → d.homeOf names ≠ ["-"]) :
    (s.start.down (s.lead d ++ d.homeOf names)).text ≠ "-" := by
  intro htext
  have hfront := Path.front_down (p := s.start) (h.isName_lead_append_home s)
  rw [show s.start.down (s.lead d ++ d.homeOf names) = ⟨"-"⟩ from congrArg Path.mk htext,
    show Path.front ⟨"-"⟩ = [['-']] from rfl] at hfront
  cases s with
  | bare =>
    apply hs rfl
    apply List.map_injective_iff.mpr (fun _ _ => String.toList_inj.mp)
    exact hfront.symm
  | dotted => exact absurd (List.cons.inj hfront).1 (by decide)
  | full => exact absurd (List.cons.inj hfront).1 (by decide)

private theorem directoryPath_eq : d.directoryPath = Spelling.full.start.down d.directory := by
  have hdirectory : ∀ n ∈ d.directory, Path.isName n = true := (List.forall_mem_append.mp h.isName).1
  by_cases hnil : d.directory = []
  · rw [Disk.directoryPath, hnil]
    rfl
  · apply Path.eq_of_toList
    rw [Path.toList_down hdirectory hnil]
    simp [Disk.directoryPath, Spelling.start, Path.stem, Path.ofNames]

private theorem isAbsolute_origin (s : Spelling) : (s.origin d).isAbsolute = true := by
  have habs : d.directoryPath.isAbsolute = true := by
    rw [h.directoryPath_eq, Path.isAbsolute_down (List.forall_mem_append.mp h.isName).1]
    decide
  cases s with
  | bare => exact habs
  | full => exact habs
  | dotted =>
    rw [← Path.head?_front_eq_nil_iff] at habs ⊢
    rw [Spelling.origin, Path.front_join (by decide) (by decide), List.head?_append, habs]
    rfl

private theorem start?_origin (s : Spelling) : d.start? (s.origin d) = some d.directory := by
  have hstart : d.start? d.directoryPath = some d.directory := by
    rw [h.directoryPath_eq]
    exact h.start?_down .full (List.prefix_append ..)
  cases s with
  | bare => exact hstart
  | full => exact hstart
  | dotted =>
    have hkind : FileTree.kindAt d.directory d.tree = some true :=
      FileTree.kindAt_of_append h.isSome_at? h.ne_nil
    have habs : d.directoryPath.isAbsolute = true := h.isAbsolute_origin .full
    have habs' : (d.directoryPath.join ⟨"."⟩).isAbsolute = true := h.isAbsolute_origin .dotted
    rw [Spelling.origin]
    unfold Disk.start? at hstart ⊢
    rw [habs] at hstart
    rw [habs', Path.front_join (by decide) (by decide), FileTree.follow_append, hstart,
      Option.bind_some, show Path.front ⟨"."⟩ = [['.']] from rfl, FileTree.follow_cons, if_pos hkind]
    rfl

private theorem absolute_path (s : Spelling) : d.absolute (s.path d names) = (s.origin d).down names := by
  have hnames : ∀ n ∈ names, Path.isName n = true := (List.forall_mem_append.mp h.isName).2
  unfold Disk.absolute
  cases s with
  | bare => exact Path.join_ofNames hnames h.ne_nil
  | dotted =>
    rw [Spelling.path_eq h.isName h.ne_nil]
    exact Path.join_down (by decide) (by decide) hnames
  | full =>
    have hfull : Spelling.full.path d names = d.directoryPath.down names := by
      rw [Spelling.path_eq h.isName h.ne_nil, h.directoryPath_eq, ← Path.down_append]
      rfl
    rw [hfull, Path.join, if_pos]
    · rfl
    · rw [Path.isAbsolute_down hnames]
      exact h.isAbsolute_origin .full

private theorem rootedAt (s : Spelling) {a : Analysis} (ha : a.root = d.absolute (s.path d names)) :
    a.RootedAt d (d.directory ++ names) := by
  have hnames : ∀ n ∈ names, Path.isName n = true := (List.forall_mem_append.mp h.isName).2
  rw [h.absolute_path] at ha
  refine ⟨h.proper, ?_, ?_⟩
  · rw [ha, Path.isAbsolute_down hnames, h.isAbsolute_origin s]
  · rw [ha, Disk.locate?_down_of_start? (h.start?_origin s)
      (h.isSome_on_way (List.prefix_append ..)) hnames h.ne_nil, if_pos h.isSome_at?]

private theorem fileName?_absolute (s : Spelling) :
    (d.absolute (s.path d names)).fileName? = names.getLast? := by
  have hnames : ∀ n ∈ names, Path.isName n = true := (List.forall_mem_append.mp h.isName).2
  rw [h.absolute_path, Path.fileName?_down hnames]
  cases hlast : names.getLast? with
  | none => exact absurd (List.getLast?_eq_none_iff.mp hlast) h.ne_nil
  | some last => rfl

end Target

namespace Cli

variable {h : Host} {names : List String}

/-- The build files around a target are the same for all its paths, unless it is a file in the working
directory, or in a directory `-` that looks like the standard input. -/
theorem buildDependencies_toOption (ht : Target h.disk names) (s : Spelling)
    (hs : s = .bare → h.disk.homeOf names ≠ [] ∧ h.disk.homeOf names ≠ ["-"]) :
    (buildDependencies h (s.path h.disk names)).toOption =
      (buildDependencies h (Spelling.full.path h.disk names)).toOption := by
  unfold buildDependencies
  rw [Host.startDirectory_path ht, Host.startDirectory_path ht]
  simp only [toOption_mapError]
  exact Gradle.discover_toOption_congr ht.proper (ht.seenByName_home s fun hb => (hs hb).1)
    (ht.seenByName_home .full (by simp)) (ht.text_home_ne s fun hb => (hs hb).2)
    (ht.text_home_ne .full (by simp)) (ht.locate?_home s fun hb => (hs hb).1)
    (ht.locate?_home .full (by simp)) ht.kindAt_home

private theorem buildDependencies_eq_error (ht : Target h.disk names) (hhome : h.disk.homeOf names = []) :
    buildDependencies h (Spelling.bare.path h.disk names) = .error (.gradle ⟨""⟩) := by
  unfold buildDependencies
  rw [Host.startDirectory_path ht, hhome]
  rfl

section Repairs

variable {d : Disk} {root : Path} {r : LintResult}

/-- Two checks find the same, and leave the same disk behind. -/
structure CheckResult.Alike (d : Disk) (c c' : CheckResult) : Prop where
  result : c.result = c'.result
  failed : c.failed = c'.failed
  failure : c.repairs.failure = c'.repairs.failure
  content : ∀ place,
    FileTree.contentAt place (d.writeAll (c.repairs.files.map fun f => (f.path, f.text))).tree =
      FileTree.contentAt place (d.writeAll (c'.repairs.files.map fun f => (f.path, f.text))).tree

private theorem CheckResult.alike_ofAnalysis {root' : Path} (h : Mendable d root r.violations)
    (h' : Mendable d root' r.violations)
    (hlocate : ∀ v ∈ r.violations, d.locate? (sourcePath root v.location.file) =
      d.locate? (sourcePath root' v.location.file)) (fix : Bool) (threshold : Severity) :
    Alike d (ofAnalysis d root fix threshold r) (ofAnalysis d root' fix threshold r) := by
  cases fix with
  | false => exact ⟨rfl, rfl, rfl, fun _ => rfl⟩
  | true =>
    have hfixes : ∀ place, fixesAt d root r.violations place = fixesAt d root' r.violations place := by
      intro place
      apply List.filterMap_congr
      rintro ⟨v, i⟩ hv
      rw [hlocate v (List.mem_of_getElem? (List.mem_zipIdx_iff_getElem?.mp hv))]
    have hmended : ∀ i, IsMended d root r.violations i ↔ IsMended d root' r.violations i := by
      intro i
      unfold IsMended
      refine exists_congr fun v => exists_congr fun f => exists_congr fun place =>
        exists_congr fun source => exists_congr fun j => and_congr_right fun hv => ?_
      rw [hlocate v (List.mem_of_getElem? hv), hfixes]
    refine ⟨rfl, ?_, ?_, ?_⟩
    · change remains threshold r.violations (Repairs.run d (FileFixes.ofResult root r)).gone =
        remains threshold r.violations (Repairs.run d (FileFixes.ofResult root' r)).gone
      rw [Bool.eq_iff_iff, remains_iff, remains_iff]
      simp only [h.mem_gone_iff, h'.mem_gone_iff, hmended]
    · change (Repairs.run d (FileFixes.ofResult root r)).failure =
        (Repairs.run d (FileFixes.ofResult root' r)).failure
      rw [Repairs.run_eq (fun g hg => h.read? hg) h.pairwise,
        Repairs.run_eq (fun g hg => h'.read? hg) h'.pairwise]
    · intro place
      change FileTree.contentAt place (d.writeAll ((Repairs.run d (FileFixes.ofResult root r)).files.map
          fun f => (f.path, f.text))).tree =
        FileTree.contentAt place (d.writeAll ((Repairs.run d (FileFixes.ofResult root' r)).files.map
          fun f => (f.path, f.text))).tree
      rw [h.contentAt_eq, h'.contentAt_eq, hfixes]

/-- An analysis from another root to the same place is followed by the same repairs. -/
private theorem CheckResult.alike_of_run {a : Analysis} {place : List String} (h : a.RootedAt d place)
    (h' : { a with root := root }.RootedAt d place) (fix : Bool) (threshold : Severity)
    (hrun : (a.run d).toOption = ({ a with root := root }.run d).toOption) :
    Option.Rel (Alike d) ((a.run d).toOption.map (ofAnalysis d a.root fix threshold))
      (({ a with root := root }.run d).toOption.map (ofAnalysis d root fix threshold)) := by
  rw [← hrun]
  cases hr : (a.run d).toOption with
  | none => exact .none
  | some r =>
    have hr' : { a with root := root }.run d = .ok r := toOption_eq_some_iff.mp (hrun ▸ hr)
    have hr : a.run d = .ok r := toOption_eq_some_iff.mp hr
    refine .some (alike_ofAnalysis (mendable_of_run h hr) (mendable_of_run h' hr') ?_ fix threshold)
    intro v hv
    obtain ⟨names, _, hat, hnames, hfile⟩ := h.exists_file hr hv
    rw [hfile, locate?_sourcePath h.locate? hnames (by simp [hat]),
      locate?_sourcePath h'.locate? hnames (by simp [hat])]

end Repairs

namespace CheckRequest

variable {q : CheckRequest} {frontend : Frontend} {config : Option Path}

def analysis (q : CheckRequest) (d : Disk) (frontend : Frontend) (st : Settings)
    (found : List Dependency) (excludes : List ExcludePattern) : Analysis where
  root := d.absolute q.path
  detectors := selectedDetectors st q.rules
  excludes := excludes
  settings := st
  frontend := frontend
  dependencies := found ++ st.dependencies
  failOnParseError := false

def foundDependencies (q : CheckRequest) (h : Host) (st : Settings) : Except Failure (List Dependency) :=
  if q.discoverGradle && st.project.discoverGradle then buildDependencies h q.path else pure []

def plan (q : CheckRequest) (frontend : Frontend) (st : Settings) (found : List Dependency) : Plan :=
  ⟨some q.path, selectedDetectors st q.rules, q.excludes, st, some frontend, found, false⟩

def finish (q : CheckRequest) (h : Host) (frontend : Frontend) (st : Settings)
    (found : List Dependency) : Except Failure CheckResult := do
  if (selectedDetectors st q.rules).isEmpty then throw .noRules
  let a ← ((q.plan frontend st found).analysis h.disk).mapError fun _ => .plan
  let result ← (a.run h.disk).mapError fun _ => .analysis
  return .ofAnalysis h.disk a.root q.fix st.failThreshold result

theorem run_eq : q.run h frontend config =
    h.settings q.path config >>= fun st => q.foundDependencies h st >>= q.finish h frontend st := by
  unfold run
  refine congrArg (h.settings q.path config >>= ·) (funext fun st => ?_)
  unfold foundDependencies
  split <;> rfl

private theorem plan_analysis_toOption {d : Disk} {st : Settings} {found : List Dependency} :
    ((q.plan frontend st found).analysis d).toOption =
      ((q.excludes ++ st.scope.exclude).mapM ExcludePattern.ofText?).map
        (q.analysis d frontend st found) := by
  unfold Plan.analysis plan
  dsimp only
  cases (q.excludes ++ st.scope.exclude).mapM ExcludePattern.ofText? <;> rfl

private theorem finish_toOption {st : Settings} {found : List Dependency}
    (hrules : (selectedDetectors st q.rules).isEmpty = false) :
    (q.finish h frontend st found).toOption =
      ((q.excludes ++ st.scope.exclude).mapM ExcludePattern.ofText?).bind fun excludes =>
        ((q.analysis h.disk frontend st found excludes).run h.disk).toOption.map
          (.ofAnalysis h.disk (h.disk.absolute q.path) q.fix st.failThreshold) := by
  unfold finish
  simp only [hrules, Bool.false_eq_true, if_false, toOption_bind, toOption_mapError,
    plan_analysis_toOption, Option.bind_map]
  refine congrArg (Option.bind _) (funext fun excludes => ?_)
  exact (Option.map_eq_bind ..).symm

/-- Whether a pattern matches the same files below a target if its path is written with a dot. -/
def IgnoresDot (d : Disk) (names : List String) (p : ExcludePattern) : Prop :=
  ∀ below : List String, (∀ n ∈ below, Path.isName n = true) →
    p.isMatch ((d.absolute (Spelling.dotted.path d names)).down below).text =
      p.isMatch ((d.absolute (Spelling.full.path d names)).down below).text

private theorem isMatch_absolute (ht : Target h.disk names) {p : ExcludePattern} {s : Spelling}
    (hs : s = .dotted → IgnoresDot h.disk names p) {below : List String}
    (hbelow : ∀ n ∈ below, Path.isName n = true) :
    p.isMatch ((h.disk.absolute (s.path h.disk names)).down below).text =
      p.isMatch ((h.disk.absolute (Spelling.full.path h.disk names)).down below).text := by
  cases s with
  | bare => rw [ht.absolute_path, ht.absolute_path, Spelling.origin, Spelling.origin]
  | dotted => exact hs rfl below hbelow
  | full => rfl

private theorem ignoresDot_below {d : Disk} (ht : Target d names) {name : List Char} (hslash : '/' ∉ name)
    (hdot : name ≠ ['.']) : IgnoresDot d names (.below name) := by
  intro below hbelow
  have hnames : ∀ n ∈ names ++ below, Path.isName n = true :=
    List.forall_mem_append.mpr ⟨(List.forall_mem_append.mp ht.isName).2, hbelow⟩
  have hne : names ++ below ≠ [] := by simp [ht.ne_nil]
  have hpieces : ∀ s : Spelling,
      (Text.pieces '/' ((d.absolute (s.path d names)).down below).text.toList).dropLast =
        (s.origin d).front ++ ((names ++ below).map String.toList).dropLast := by
    intro s
    rw [ht.absolute_path, ← Path.down_append, Path.pieces_down hnames hne,
      List.dropLast_append_of_ne_nil (by simpa using hne)]
  have hfront : (Spelling.dotted.origin d).front = (Spelling.full.origin d).front ++ [['.']] :=
    Path.front_join (by decide) (by decide)
  rw [Bool.eq_iff_iff, ExcludePattern.isMatch_below_iff hslash, ExcludePattern.isMatch_below_iff hslash,
    hpieces, hpieces, hfront]
  simp [hdot]

private theorem ignoresDot_standard {d : Disk} (ht : Target d names) :
    ∀ text ∈ Settings.standard.scope.exclude, ∀ p, ExcludePattern.ofText? text = some p →
      IgnoresDot d names p := by
  have hstandard : ∀ text ∈ Settings.standard.scope.exclude, ∃ name : List Char,
      ExcludePattern.ofText? text = some (.below name) ∧ '/' ∉ name ∧ name ≠ ['.'] := by
    simp only [Settings.standard, List.forall_mem_cons]
    exact ⟨⟨"build".toList, by decide⟩, ⟨".gradle".toList, by decide⟩, by simp⟩
  intro text htext p hp
  obtain ⟨name, hname, hslash, hdot⟩ := hstandard text htext
  obtain rfl : p = .below name := Option.some_inj.mp (hp.symm.trans hname)
  exact ignoresDot_below ht hslash hdot

def forTarget (q : CheckRequest) (d : Disk) (names : List String) (s : Spelling) : CheckRequest :=
  { q with path := s.path d names }

private theorem finish_alike (ht : Target h.disk names) {s : Spelling} {st : Settings}
    {found : List Dependency} (hs : s = .dotted → ∀ text ∈ q.excludes ++ st.scope.exclude, ∀ p,
      ExcludePattern.ofText? text = some p → IgnoresDot h.disk names p) :
    Option.Rel (CheckResult.Alike h.disk)
      ((q.forTarget h.disk names s).finish h frontend st found).toOption
      ((q.forTarget h.disk names .full).finish h frontend st found).toOption := by
  cases hrules : (selectedDetectors st q.rules).isEmpty with
  | true =>
    have hnone : ∀ s, ((q.forTarget h.disk names s).finish h frontend st found).toOption = none := by
      intro s
      unfold finish forTarget
      simp only [hrules]
      rfl
    rw [hnone, hnone]
    exact .none
  | false =>
    rw [finish_toOption (q := q.forTarget h.disk names s) hrules,
      finish_toOption (q := q.forTarget h.disk names .full) hrules]
    change Option.Rel _ (Option.bind ((q.excludes ++ st.scope.exclude).mapM ExcludePattern.ofText?) _)
      (Option.bind ((q.excludes ++ st.scope.exclude).mapM ExcludePattern.ofText?) _)
    cases hexcludes : (q.excludes ++ st.scope.exclude).mapM ExcludePattern.ofText? with
    | none => exact .none
    | some excludes =>
      have hrooted := ht.rootedAt s
        (a := (q.forTarget h.disk names s).analysis h.disk frontend st found excludes) rfl
      have hrooted' := ht.rootedAt .full
        (a := (q.forTarget h.disk names .full).analysis h.disk frontend st found excludes) rfl
      refine CheckResult.alike_of_run hrooted hrooted' q.fix st.failThreshold ?_
      refine Analysis.run_toOption_congr hrooted hrooted'
        ((ht.fileName?_absolute s).trans (ht.fileName?_absolute .full).symm) ?_
      intro p hp below hbelow
      obtain ⟨text, htext, hp⟩ := mem_of_mapM_eq_some hexcludes hp
      exact isMatch_absolute ht (fun hdotted => hs hdotted text htext p hp) hbelow

/-- When a path to a target serves as well as the one from the file system root: it hides no settings
above the working directory, it leads to a directory to look for build files in, and the patterns do not
see its dot. -/
structure Suits (q : CheckRequest) (h : Host) (names : List String) (config : Option Path)
    (s : Spelling) : Prop where
  settings : s ≠ .full → config = none →
    nearestSettingsWithin? h.disk (h.disk.homeOf names) = none →
    nearestSettings? h.disk h.disk.directory.dropLast = none
  home : s = .bare → ∀ st, h.settings (s.path h.disk names) config = .ok st →
    (q.discoverGradle && st.project.discoverGradle) = true →
    h.disk.homeOf names ≠ [] ∧ h.disk.homeOf names ≠ ["-"]
  excludes : s = .dotted → ∀ st, h.settings (s.path h.disk names) config = .ok st →
    ∀ text ∈ q.excludes ++ st.scope.exclude, ∀ p, ExcludePattern.ofText? text = some p →
    IgnoresDot h.disk names p

section Suits

variable {s : Spelling} (ht : Target h.disk names) (hs : q.Suits h names config s)
include ht hs

private theorem Suits.settings_toOption : (h.settings (s.path h.disk names) config).toOption =
    (h.settings (Spelling.full.path h.disk names) config).toOption := by
  cases config with
  | some path => rfl
  | none =>
    by_cases hfull : s = .full
    · rw [hfull]
    · apply Host.settings_congr
      rw [Host.locate?_projectFile?_relative ht hfull, Host.locate?_projectFile?_full ht,
        nearestSettings?_append]
      cases hwithin : nearestSettingsWithin? h.disk (h.disk.homeOf names) with
      | none => rw [hs.settings hfull rfl hwithin, Option.or_none]
      | some place => rfl

private theorem Suits.foundDependencies_toOption {st : Settings}
    (hst : h.settings (s.path h.disk names) config = .ok st) :
    ((q.forTarget h.disk names s).foundDependencies h st).toOption =
      ((q.forTarget h.disk names .full).foundDependencies h st).toOption := by
  unfold foundDependencies
  change (if q.discoverGradle && st.project.discoverGradle then
      buildDependencies h (s.path h.disk names) else pure []).toOption =
    (if q.discoverGradle && st.project.discoverGradle then
      buildDependencies h (Spelling.full.path h.disk names) else pure []).toOption
  split
  case isTrue hdiscover =>
    exact buildDependencies_toOption ht s fun hbare => hs.home hbare st hst hdiscover
  case isFalse => rfl

private theorem Suits.run_alike : Option.Rel (CheckResult.Alike h.disk)
    ((q.forTarget h.disk names s).run h frontend config).toOption
    ((q.forTarget h.disk names .full).run h frontend config).toOption := by
  rw [run_eq, run_eq, toOption_bind, toOption_bind]
  change Option.Rel _ ((h.settings (s.path h.disk names) config).toOption.bind _)
    ((h.settings (Spelling.full.path h.disk names) config).toOption.bind _)
  rw [← hs.settings_toOption ht]
  cases hst : h.settings (s.path h.disk names) config with
  | error failure => exact .none
  | ok st =>
    rw [show (Except.ok st : Except Failure Settings).toOption = some st from rfl, Option.bind_some,
      Option.bind_some, toOption_bind, toOption_bind, hs.foundDependencies_toOption ht hst]
    cases ((q.forTarget h.disk names .full).foundDependencies h st).toOption with
    | none => exact .none
    | some found => exact finish_alike ht fun hdotted => hs.excludes hdotted st hst

end Suits

private theorem outcome_of_alike {q' : CheckRequest} (halike : Option.Rel (CheckResult.Alike h.disk)
      (q.run h frontend config).toOption (q'.run h frontend config).toOption) :
    let o := q.outcome h frontend config
    let o' := q'.outcome h frontend config
    o.status = o'.status ∧ ∀ place, FileTree.contentAt place (o.diskAfter h.disk).tree =
      FileTree.contentAt place (o'.diskAfter h.disk).tree := by
  unfold outcome
  cases hrun : q.run h frontend config with
  | error failure =>
    cases hrun' : q'.run h frontend config with
    | error failure' => exact ⟨rfl, fun _ => rfl⟩
    | ok c' =>
      rw [hrun, hrun'] at halike
      cases halike
  | ok c =>
    cases hrun' : q'.run h frontend config with
    | error failure' =>
      rw [hrun, hrun'] at halike
      cases halike
    | ok c' =>
      rw [hrun, hrun'] at halike
      cases halike with
      | some halike =>
        refine ⟨?_, halike.content⟩
        simp only [CheckResult.outcome, halike.failure, halike.failed]

/-- How the path of a target is written makes a difference in three ways. From the file system root, the
settings file in the nearest directory at or above the target is found, and otherwise only if it is not
above the working directory. A bare path to a file in the working directory has no directory to look for
build files in, and the check gives up if it has to. Where none of this happens and the patterns do not
see the dot of a dotted path, settings, dependencies, violations, exit status and the disk after the check
are the same for all ways to write the path. -/
theorem run_depends_on_place (q : CheckRequest) (h : Host) (frontend : Frontend) (config : Option Path)
    (names : List String) (ht : Target h.disk names) :
    let home := h.disk.homeOf names
    let path s := Spelling.path h.disk names s
    let check s := q.forTarget h.disk names s
    (h.projectFile? (path .full)).bind h.disk.locate? =
        nearestSettings? h.disk (h.disk.directory ++ home) ∧
    (∀ s ≠ .full, (h.projectFile? (path s)).bind h.disk.locate? = nearestSettingsWithin? h.disk home) ∧
    nearestSettings? h.disk (h.disk.directory ++ home) =
        (nearestSettingsWithin? h.disk home).or (nearestSettings? h.disk h.disk.directory.dropLast) ∧
    (∀ s, (s = .bare → home ≠ [] ∧ home ≠ ["-"]) →
      (buildDependencies h (path s)).toOption = (buildDependencies h (path .full)).toOption) ∧
    (∀ st, home = [] → h.settings (path .bare) config = .ok st →
      (q.discoverGradle && st.project.discoverGradle) = true →
      (check .bare).run h frontend config = .error (.gradle ⟨""⟩)) ∧
    ∀ s, q.Suits h names config s →
      (h.settings (path s) config).toOption = (h.settings (path .full) config).toOption ∧
      Option.Rel (CheckResult.Alike h.disk) ((check s).run h frontend config).toOption
        ((check .full).run h frontend config).toOption ∧
      ((check s).outcome h frontend config).status = ((check .full).outcome h frontend config).status ∧
      ∀ place,
        FileTree.contentAt place (((check s).outcome h frontend config).diskAfter h.disk).tree =
          FileTree.contentAt place (((check .full).outcome h frontend config).diskAfter h.disk).tree := by
  intro home path check
  refine ⟨Host.locate?_projectFile?_full ht, fun s hs => Host.locate?_projectFile?_relative ht hs,
    nearestSettings?_append h.disk home, fun s hs => buildDependencies_toOption ht s hs, ?_, ?_⟩
  · intro st hhome hst hdiscover
    rw [run_eq]
    change h.settings (path .bare) config >>= _ = _
    rw [hst]
    change (if q.discoverGradle && st.project.discoverGradle then buildDependencies h (path .bare)
      else pure []) >>= _ = _
    rw [if_pos hdiscover, buildDependencies_eq_error ht hhome]
    rfl
  · intro s hs
    exact ⟨hs.settings_toOption ht, hs.run_alike ht, outcome_of_alike (hs.run_alike ht)⟩

def projectHost : Host where
  disk :=
    { tree := .dir [("work", .dir [("Main.kt", .file (.text "val x = GlobalScope")),
        ("app", .dir [("Screen.kt", .file (.text "val x = GlobalScope"))]),
        ("build.gradle", .file (.text "implementation 'org.example:core:1.0'"))])]
      directory := ["work"] }
  sharedDirectory := none

def projectFrontend : Frontend :=
  Kotlin.frontend fun _ => some (.over "source_file" 0 19 [.over "property_declaration" 0 19 [
    .over "variable_declaration" 4 5 [.over "identifier" 4 5 []], .mk "=" false ⟨6, 7⟩ none [],
    .over "identifier" 8 19 []]])

def plainCheck : CheckRequest := ⟨⟨"."⟩, .text, none, [], true, true⟩

private theorem settings_projectHost (s : Spelling) :
    projectHost.settings (s.path projectHost.disk ["app", "Screen.kt"]) none = .ok .standard := by
  have hfile : projectHost.settingsFile? (s.path projectHost.disk ["app", "Screen.kt"]) none = none := by
    cases s <;> decide +kernel
  rw [Host.settings, hfile]

theorem run_depends_on_place_screen :
    Target projectHost.disk ["app", "Screen.kt"] ∧
    ∀ s, plainCheck.Suits projectHost ["app", "Screen.kt"] none s ∧
      Option.Rel (CheckResult.Alike projectHost.disk)
        ((plainCheck.forTarget projectHost.disk ["app", "Screen.kt"] s).run projectHost
          projectFrontend none).toOption
        ((plainCheck.forTarget projectHost.disk ["app", "Screen.kt"] .full).run projectHost
          projectFrontend none).toOption := by
  have ht : Target projectHost.disk ["app", "Screen.kt"] :=
    ⟨by decide +kernel, by decide, by decide +kernel⟩
  have hs : ∀ s, plainCheck.Suits projectHost ["app", "Screen.kt"] none s := by
    intro s
    refine ⟨fun _ _ _ => by decide +kernel, fun _ _ _ _ => by decide +kernel, ?_⟩
    intro _ st hst
    obtain rfl : st = .standard := Except.ok.inj (hst.symm.trans (settings_projectHost s))
    exact ignoresDot_standard ht
  obtain ⟨-, -, -, -, -, hsame⟩ := run_depends_on_place plainCheck projectHost projectFrontend none
    ["app", "Screen.kt"] ht
  exact ⟨ht, fun s => ⟨hs s, (hsame s (hs s)).2.1⟩⟩

/-- The violation in a file in the working directory is not found if its path is bare. -/
theorem bare_file_target_fails :
    let check s := (plainCheck.forTarget projectHost.disk ["Main.kt"] s).run projectHost
      projectFrontend none
    let found s := (check s).toOption.map fun c => (c.result.violations.length, c.failed)
    found .bare = none ∧ found .dotted = some (1, false) ∧ found .full = some (1, false) := by
  decide +kernel

end CheckRequest

end Cli
end CoroutineCheck

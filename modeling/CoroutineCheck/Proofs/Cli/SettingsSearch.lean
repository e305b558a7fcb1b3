import CoroutineCheck.Cli.SettingsFile
import CoroutineCheck.Proofs.FileTree.Walks
import Mathlib.Data.List.Find
/-!
# The search for a settings file

What stands below the working directory can be written as a bare path, with `./` in front, or from the
file system root. The search for a settings file goes up along the path as it is written: from the file
system root it finds the nearest one at or above the target, and otherwise the nearest one that is not
above the working directory.
-/
namespace CoroutineCheck

/-- A way to write the path to something below the working directory. -/
inductive Spelling where
  | bare
  | dotted
  | full
deriving DecidableEq, Repr

namespace Spelling

def path (d : Disk) (names : List String) : Spelling → Path
  | bare => ⟨"/".intercalate names⟩
  | dotted => ⟨"./" ++ "/".intercalate names⟩
  | full => ⟨"/" ++ "/".intercalate (d.directory ++ names)⟩

def start : Spelling → Path
  | bare => ⟨""⟩
  | dotted => ⟨"."⟩
  | full => ⟨"/"⟩

def lead (d : Disk) : Spelling → List String
  | bare => []
  | dotted => []
  | full => d.directory

def base (d : Disk) : Spelling → List String
  | bare => d.directory
  | dotted => d.directory
  | full => []

variable {d : Disk} {names : List String}

private theorem start_mem (s : Spelling) : s.start ∈ Path.starts := by
  cases s <;> simp [start, Path.starts]

theorem base_append_lead_append (s : Spelling) (way : List String) :
    s.base d ++ (s.lead d ++ way) = d.directory ++ way := by
  cases s <;> simp [base, lead]

theorem path_eq (h : ∀ n ∈ d.directory ++ names, Path.isName n = true) (hne : names ≠ [])
    (s : Spelling) : s.path d names = s.start.down (s.lead d ++ names) := by
  have hnames : ∀ n ∈ names, Path.isName n = true := (List.forall_mem_append.mp h).2
  apply Path.eq_of_toList
  cases s with
  | bare =>
    rw [start, lead, List.nil_append, Path.toList_down hnames hne]
    rfl
  | dotted =>
    rw [start, lead, List.nil_append, Path.toList_down hnames hne]
    simp [path, Path.ofNames, Path.stem]
  | full =>
    rw [start, lead, Path.toList_down h (by simp [hne])]
    simp [path, Path.ofNames, Path.stem]

end Spelling

/-- A file or directory that names lead to from the working directory. -/
structure Target (d : Disk) (names : List String) : Prop where
  proper : d.tree.isProper = true
  ne_nil : names ≠ []
  isSome_at? : (FileTree.at? (d.directory ++ names) d.tree).isSome = true

namespace Target

variable {d : Disk} {names : List String} (h : Target d names)
include h

theorem isName : ∀ n ∈ d.directory ++ names, Path.isName n = true := by
  obtain ⟨u, hu⟩ := Option.isSome_iff_exists.mp h.isSome_at?
  exact (FileTree.isProper_at? h.proper hu).1

theorem isSome_on_way {place : List String} (hplace : place <+: d.directory ++ names) :
    (FileTree.at? place d.tree).isSome = true := by
  obtain ⟨below, hbelow⟩ := hplace
  have hat := h.isSome_at?
  rw [← hbelow, FileTree.at?_append] at hat
  exact Option.isSome_of_isSome_bind hat

private theorem start?_start (s : Spelling) : d.start? s.start = some (s.base d) := by
  have hdirectory : FileTree.kindAt d.directory d.tree = some true :=
    FileTree.kindAt_of_append h.isSome_at? h.ne_nil
  have hroot : FileTree.kindAt [] d.tree = some true :=
    FileTree.kindAt_of_append h.isSome_at? (by simp [h.ne_nil])
  cases s with
  | bare => rfl
  | dotted =>
    change d.tree.follow d.directory [['.']] = some d.directory
    rw [FileTree.follow_cons, if_pos hdirectory]
    rfl
  | full =>
    change d.tree.follow [] [[]] = some []
    rw [FileTree.follow_cons, if_pos hroot]
    rfl

private theorem isName_on_way {front way : List String} (hway : front ++ way <+: d.directory ++ names) :
    ∀ n ∈ way, Path.isName n = true :=
  fun n hn => h.isName n (hway.subset (List.mem_append_right _ hn))

theorem start?_down (s : Spelling) {way : List String} (hway : s.base d ++ way <+: d.directory ++ names) :
    d.start? (s.start.down way) = some (s.base d ++ way) := by
  have hbase : (FileTree.at? (s.base d) d.tree).isSome = true :=
    h.isSome_on_way ((List.prefix_append ..).trans hway)
  have hnames := h.isName_on_way hway
  rw [Disk.start?_down hnames, h.start?_start, Option.bind_some, FileTree.follow_names hnames hbase,
    if_pos (h.isSome_on_way hway)]

private theorem locate?_path (s : Spelling) : d.locate? (s.path d names) = some (d.directory ++ names) := by
  have hplace := s.base_append_lead_append (d := d) names
  have hway : s.base d ++ (s.lead d ++ names) <+: d.directory ++ names := hplace ▸ List.prefix_rfl
  rw [s.path_eq h.isName h.ne_nil, Disk.locate?_down_of_start? (h.start?_start s)
    (h.isSome_on_way ((List.prefix_append ..).trans hway)) (h.isName_on_way hway)
    (by simp [h.ne_nil]), hplace, if_pos h.isSome_at?]

end Target

/-- The names of the directory that a target is, or is in if it is a file. -/
def Disk.homeOf (d : Disk) (names : List String) : List String :=
  if (FileTree.contentAt (d.directory ++ names) d.tree).isSome then names.dropLast else names

theorem Disk.homeOf_on_way (d : Disk) (names : List String) : d.homeOf names <+: names := by
  unfold homeOf
  split
  · exact List.dropLast_prefix _
  · exact List.prefix_rfl

namespace Cli

def settingsIn? (d : Disk) (directory : List String) : Option (List String) :=
  (Host.fileNames.map fun name => directory ++ [name]).find? fun place =>
    (FileTree.contentAt place d.tree).isSome

namespace Host

variable {h : Host} {p : Path} {place names : List String}

private theorem isFile_eq (d : Disk) (p : Path) : d.isFile p = (d.content? p).isSome := by
  unfold Disk.isFile Disk.find? Disk.content? FileTree.contentAt
  cases d.locate? p <;> rfl

def fileIn? (h : Host) (p : Path) : Option Path :=
  (fileNames.map fun name => p.join ⟨name⟩).find? h.disk.isFile

private theorem isSome_locate?_of_fileIn? {q : Path} (hq : h.fileIn? p = some q) :
    (h.disk.locate? q).isSome = true := by
  have hfile := List.find?_some hq
  rw [isFile_eq] at hfile
  exact Option.isSome_of_isSome_bind hfile

private theorem locate?_fileIn? (hstart : h.disk.start? p = some place)
    (hplace : (FileTree.at? place h.disk.tree).isSome = true) :
    (h.fileIn? p).bind h.disk.locate? = settingsIn? h.disk place := by
  have hlocate : ∀ name ∈ fileNames, h.disk.locate? (p.join ⟨name⟩) =
      if (FileTree.at? (place ++ [name]) h.disk.tree).isSome then some (place ++ [name]) else none := by
    intro name hname
    have hisName : ∀ n ∈ [name], Path.isName n = true := by
      have hall : ∀ n ∈ fileNames, Path.isName n = true := by decide
      simpa using hall name hname
    have hdown := Disk.locate?_down_of_start? hstart hplace hisName (by simp)
    rwa [Path.down_cons, Path.down_nil] at hdown
  have hfile : ∀ name ∈ fileNames, h.disk.isFile (p.join ⟨name⟩) =
      (FileTree.contentAt (place ++ [name]) h.disk.tree).isSome := by
    intro name hname
    rw [isFile_eq, Disk.content?, hlocate name hname]
    cases hat : FileTree.at? (place ++ [name]) h.disk.tree <;> simp [FileTree.contentAt, hat]
  have hfind : fileNames.find? (h.disk.isFile ∘ fun name => p.join ⟨name⟩) =
      fileNames.find? ((fun place => (FileTree.contentAt place h.disk.tree).isSome) ∘
        fun name => place ++ [name]) := List.find?_congr hfile
  rw [fileIn?, settingsIn?, List.find?_map, List.find?_map, hfind]
  cases hfound : fileNames.find? _ with
  | none => rfl
  | some name =>
    have hcontent := List.find?_some hfound
    rw [Option.map_some, Option.bind_some, hlocate name (List.mem_of_find?_eq_some hfound), if_pos]
    · rfl
    · exact Option.isSome_of_isSome_bind hcontent

private theorem locate?_findSome? {ways : List (Path × List String)}
    (hways : ∀ w ∈ ways, h.disk.start? w.1 = some w.2 ∧
      (FileTree.at? w.2 h.disk.tree).isSome = true) :
    ((ways.map Prod.fst).findSome? h.fileIn?).bind h.disk.locate? =
      (ways.map Prod.snd).findSome? (settingsIn? h.disk) := by
  induction ways with
  | nil => rfl
  | cons w ways ih =>
    obtain ⟨⟨hstart, hplace⟩, hways⟩ := List.forall_mem_cons.mp hways
    have hfile := locate?_fileIn? hstart hplace
    rw [List.map_cons, List.map_cons, List.findSome?_cons, List.findSome?_cons, ← hfile]
    cases hq : h.fileIn? w.1 with
    | none => exact ih hways
    | some q =>
      obtain ⟨found, hfound⟩ := Option.isSome_iff_exists.mp (isSome_locate?_of_fileIn? hq)
      simp [hfound]

private theorem locate?_findSome?_down (ht : Target h.disk names) (s : Spelling) {way : List String}
    (hway : s.base h.disk ++ way <+: h.disk.directory ++ names) :
    ((way.inits.reverse.map s.start.down).findSome? h.fileIn?).bind h.disk.locate? =
      (way.inits.reverse.map (s.base h.disk ++ ·)).findSome? (settingsIn? h.disk) := by
  have hways : ∀ w ∈ way.inits.reverse.map fun w => (s.start.down w, s.base h.disk ++ w),
      h.disk.start? w.1 = some w.2 ∧ (FileTree.at? w.2 h.disk.tree).isSome = true := by
    simp only [List.forall_mem_map, List.mem_reverse, List.mem_inits]
    intro w hw
    have hinitial : s.base h.disk ++ w <+: h.disk.directory ++ names :=
      ((List.prefix_append_right_inj _).mpr hw).trans hway
    exact ⟨ht.start?_down s hinitial, ht.isSome_on_way hinitial⟩
  have hpairs := locate?_findSome? hways
  rwa [List.map_map, List.map_map] at hpairs

/-- The search from a directory on the way to a target goes up to where the path is written from. -/
theorem locate?_ancestors (ht : Target h.disk names) (s : Spelling) {way : List String}
    (hway : s.base h.disk ++ way <+: h.disk.directory ++ names) :
    ((s.start.down way).ancestors.findSome? h.fileIn?).bind h.disk.locate? =
      (way.inits.reverse.map (s.base h.disk ++ ·)).findSome? (settingsIn? h.disk) := by
  have hnames := ht.isName_on_way hway
  have hsearch := locate?_findSome?_down ht s hway
  rw [Path.ancestors_down s.start_mem hnames, List.findSome?_append]
  cases s with
  | bare =>
    rw [show (Spelling.start .bare).ancestors.tail = [] from rfl, List.findSome?_nil, Option.or_none]
    exact hsearch
  | full =>
    rw [show (Spelling.start .full).ancestors.tail = [] from rfl, List.findSome?_nil, Option.or_none]
    exact hsearch
  | dotted =>
    -- The working directory is asked once more, as the empty path.
    rw [show (Spelling.start .dotted).ancestors.tail = [⟨""⟩] from rfl, List.findSome?_singleton]
    cases hfound : (way.inits.reverse.map (Spelling.start .dotted).down).findSome? h.fileIn? with
    | some q =>
      rw [hfound] at hsearch
      exact hsearch
    | none =>
      have hnone : (way.inits.reverse.map (h.disk.directory ++ ·)).findSome? (settingsIn? h.disk) =
          none := hsearch.symm.trans (congrArg (Option.bind · h.disk.locate?) hfound)
      have hhere : settingsIn? h.disk h.disk.directory = none := by
        rw [List.findSome?_eq_none_iff] at hnone
        exact hnone _ (List.mem_map.mpr ⟨[], by simp, List.append_nil _⟩)
      have hstart : h.disk.start? ⟨""⟩ = some h.disk.directory := rfl
      have hempty := locate?_fileIn? hstart (ht.isSome_on_way (List.prefix_append ..))
      rw [Option.none_or, hempty, hhere]
      exact hnone.symm

theorem startDirectory_path (ht : Target h.disk names) (s : Spelling) :
    h.startDirectory (s.path h.disk names) =
      s.start.down (s.lead h.disk ++ h.disk.homeOf names) := by
  have hfile : h.disk.isFile (s.path h.disk names) =
      (FileTree.contentAt (h.disk.directory ++ names) h.disk.tree).isSome := by
    rw [isFile_eq, Disk.content?, ht.locate?_path, Option.bind_some]
  rw [startDirectory, hfile, Disk.homeOf]
  split
  · obtain ⟨front, last, rfl⟩ := (List.eq_nil_or_concat' names).resolve_left ht.ne_nil
    have hnames : ∀ n ∈ s.lead h.disk ++ front ++ [last], Path.isName n = true := by
      refine ht.isName_on_way (show s.base h.disk ++ _ <+: _ from ?_)
      rw [List.append_assoc, s.base_append_lead_append]
    rw [s.path_eq ht.isName ht.ne_nil, ← List.append_assoc, Path.parent?_down s.start_mem hnames,
      List.dropLast_concat]
    rfl
  · exact s.path_eq ht.isName ht.ne_nil

private theorem isSome_locate?_of_projectFile? {q : Path} (hq : h.projectFile? p = some q) :
    (h.disk.locate? q).isSome = true := by
  obtain ⟨_, dir, _, _, hdir, _⟩ := List.findSome?_eq_some_iff.mp hq
  exact isSome_locate?_of_fileIn? hdir

private theorem locate?_projectFile? (ht : Target h.disk names) (s : Spelling) :
    (h.projectFile? (s.path h.disk names)).bind h.disk.locate? =
      ((s.lead h.disk ++ h.disk.homeOf names).inits.reverse.map (s.base h.disk ++ ·)).findSome?
        (settingsIn? h.disk) := by
  have hway : s.base h.disk ++ (s.lead h.disk ++ h.disk.homeOf names) <+:
      h.disk.directory ++ names := by
    rw [s.base_append_lead_append]
    exact (List.prefix_append_right_inj _).mpr (h.disk.homeOf_on_way names)
  have hsearch := locate?_ancestors ht s hway
  rwa [← startDirectory_path ht s] at hsearch

theorem settings_congr {q : Path} (named : Option Path)
    (hfound : (h.projectFile? p).bind h.disk.locate? = (h.projectFile? q).bind h.disk.locate?) :
    (h.settings p named).toOption = (h.settings q named).toOption := by
  cases named with
  | some path => rfl
  | none =>
    unfold settings settingsFile?
    cases hp : h.projectFile? p with
    | none =>
      cases hq : h.projectFile? q with
      | none => rfl
      | some file' =>
        have hfile' := isSome_locate?_of_projectFile? hq
        rw [hp, hq, Option.bind_none, Option.bind_some] at hfound
        simp [← hfound] at hfile'
    | some file =>
      cases hq : h.projectFile? q with
      | none =>
        have hfile := isSome_locate?_of_projectFile? hp
        rw [hp, hq, Option.bind_none, Option.bind_some] at hfound
        simp [hfound] at hfile
      | some file' =>
        rw [hp, hq, Option.bind_some, Option.bind_some] at hfound
        have hread : h.disk.read? file = h.disk.read? file' := by
          rw [Disk.read?_eq, Disk.read?_eq, Disk.content?, Disk.content?, hfound]
        simp only [Option.none_or, Option.some_or, hread]
        cases (h.disk.read? file').bind Settings.read? <;> rfl

end Host

def nearestSettings? (d : Disk) (place : List String) : Option (List String) :=
  place.inits.reverse.findSome? (settingsIn? d)

/-- The settings file in the nearest directory at or above a place that is not above the working
directory. -/
def nearestSettingsWithin? (d : Disk) (names : List String) : Option (List String) :=
  (names.inits.reverse.map (d.directory ++ ·)).findSome? (settingsIn? d)

private theorem inits_reverse_concat (names : List String) (name : String) :
    (names ++ [name]).inits.reverse = (names ++ [name]) :: names.inits.reverse := by
  simp [List.inits_append]

private theorem nearestSettings?_concat (d : Disk) (place : List String) (name : String) :
    nearestSettings? d (place ++ [name]) =
      (settingsIn? d (place ++ [name])).or (nearestSettings? d place) := by
  rw [nearestSettings?, inits_reverse_concat, List.findSome?_cons]
  cases settingsIn? d (place ++ [name]) <;> rfl

private theorem nearestSettingsWithin?_concat (d : Disk) (names : List String) (name : String) :
    nearestSettingsWithin? d (names ++ [name]) =
      (settingsIn? d (d.directory ++ names ++ [name])).or (nearestSettingsWithin? d names) := by
  rw [nearestSettingsWithin?, inits_reverse_concat, List.map_cons, List.findSome?_cons,
    List.append_assoc]
  cases settingsIn? d (d.directory ++ (names ++ [name])) <;> rfl

/-- The search up to the working directory misses only files above it. -/
theorem nearestSettings?_append (d : Disk) (names : List String) :
    nearestSettings? d (d.directory ++ names) =
      (nearestSettingsWithin? d names).or (nearestSettings? d d.directory.dropLast) := by
  induction names using List.reverseRecOn with
  | nil =>
    rw [List.append_nil]
    have hwithin : nearestSettingsWithin? d [] = settingsIn? d d.directory := by
      simp [nearestSettingsWithin?]
    rw [hwithin]
    rcases List.eq_nil_or_concat' d.directory with hnil | ⟨front, last, hconcat⟩
    · simp [hnil, nearestSettings?]
    · rw [hconcat, nearestSettings?_concat, List.dropLast_concat]
  | append_singleton names name ih =>
    rw [← List.append_assoc, nearestSettings?_concat, ih, nearestSettingsWithin?_concat, Option.or_assoc]

theorem Host.locate?_projectFile?_full {h : Host} {names : List String} (ht : Target h.disk names) :
    (h.projectFile? (Spelling.full.path h.disk names)).bind h.disk.locate? =
      nearestSettings? h.disk (h.disk.directory ++ h.disk.homeOf names) := by
  rw [locate?_projectFile? ht]
  simp only [Spelling.base, Spelling.lead, List.nil_append, List.map_id', nearestSettings?]

theorem Host.locate?_projectFile?_relative {h : Host} {names : List String}
    (ht : Target h.disk names) {s : Spelling} (hs : s ≠ .full) :
    (h.projectFile? (s.path h.disk names)).bind h.disk.locate? =
      nearestSettingsWithin? h.disk (h.disk.homeOf names) := by
  rw [locate?_projectFile? ht]
  cases s with
  | bare => rfl
  | dotted => rfl
  | full => exact absurd rfl hs

end Cli
end CoroutineCheck

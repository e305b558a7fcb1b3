import CoroutineCheck.Proofs.Analysis.Files
import CoroutineCheck.Proofs.FileTree.Walks
/-!
# Roots of analyses

An analysis sees files from its root. So its result depends on the place of the root, and on the path of
the root only where a pattern for excluded paths can tell that path from another.
-/
namespace CoroutineCheck

namespace Path

variable {p : Path} {names others : List String}

private theorem compareComponents_append (front xs ys : List Component) :
    compareComponents (front ++ xs) (front ++ ys) = compareComponents xs ys := by
  induction front with
  | nil => rfl
  | cons c front ih =>
    have hself : c.compare c = .eq := Std.ReflCmp.compare_self
    rw [List.cons_append, List.cons_append, compareComponents, hself, ih]
    rfl

private theorem compare_down (h : ∀ n ∈ names, isName n = true) (h' : ∀ n ∈ others, isName n = true) :
    (p.down names).compare (p.down others) =
      compareComponents (names.map .name) (others.map .name) := by
  rw [compare, components_down h, components_down h', compareComponents_append]

theorem fileName?_down (h : ∀ n ∈ names, isName n = true) :
    (p.down names).fileName? = names.getLast?.or p.fileName? := by
  unfold fileName?
  rw [components_down h]
  rcases names.eq_nil_or_concat' with rfl | ⟨front, last, rfl⟩
  · simp
  · simp

end Path

namespace Analysis

variable {a : Analysis} {d : Disk} {place : List String}

/-- The root of an analysis is absolute and leads to a place of a proper tree. -/
structure RootedAt (a : Analysis) (d : Disk) (place : List String) : Prop where
  proper : d.tree.isProper = true
  isAbsolute : a.root.isAbsolute = true
  locate? : d.locate? a.root = some place

/-- The files that an analysis finds, by the names that lead to them from the root. -/
def filesByName (a : Analysis) (fs : List (List String × Content)) : List (List String × Content) :=
  (fs.filter fun f => a.selects (a.root.down f.1, f.2)).mergeSort fun f g =>
    (Path.compareComponents (f.1.map .name) (g.1.map .name)).isLE

namespace RootedAt

variable (h : a.RootedAt d place)
include h

theorem isName {o : WalkOptions} {fs : List (List String × Content)} (hfs : d.filesAt o place = .ok fs)
    {f : List String × Content} (hf : f ∈ fs) : ∀ n ∈ f.1, Path.isName n = true :=
  fun n hn => (FileTree.isProper_at? h.proper (Disk.at?_of_mem_filesAt h.proper hfs hf)).1 n
    (List.mem_append_right _ hn)

theorem walk_eq (o : WalkOptions) :
    d.walk o a.root = (d.filesAt o place).map fun fs => fs.map fun f => (a.root.down f.1, f.2) := by
  have hhead := (Path.head?_front_eq_nil_iff a.root).mpr h.isAbsolute
  have htext : a.root.text.toList ≠ [] := by
    intro hnil
    have habs := h.isAbsolute
    simp [Path.isAbsolute, hnil] at habs
  have hdash : a.root.text ≠ "-" := by
    intro hdash
    have habs := h.isAbsolute
    simp [Path.isAbsolute, hdash] at habs
  exact Disk.walk_eq h.proper (.of_front (by simp [hhead]) htext) hdash h.locate?

theorem files_eq {fs : List (List String × Content)}
    (hfs : d.filesAt ⟨false, a.settings.scope.respectIgnoreFiles⟩ place = .ok fs) :
    a.files d = .ok ((a.filesByName fs).map fun f => (a.root.down f.1, f.2)) := by
  have hwalk := h.walk_eq ⟨false, a.settings.scope.respectIgnoreFiles⟩
  rw [hfs] at hwalk
  rw [Analysis.files_eq hwalk, List.filter_map]
  refine congrArg _ (List.map_mergeSort ?_).symm
  intro f hf g hg
  rw [Path.le, Path.compare_down (h.isName hfs (List.mem_filter.mp hf).1)
    (h.isName hfs (List.mem_filter.mp hg).1)]

private theorem run_toOption : (a.run d).toOption =
    (d.filesAt ⟨false, a.settings.scope.respectIgnoreFiles⟩ place).toOption.bind fun fs =>
      ((a.filesByName fs).mapM fun f => (a.resultOf (a.root.down f.1) f.2).toOption).map fun rs =>
        (rs.foldl LintResult.append .empty).sort := by
  unfold run
  cases hfs : d.filesAt ⟨false, a.settings.scope.respectIgnoreFiles⟩ place with
  | error e =>
    have hwalk := h.walk_eq ⟨false, a.settings.scope.respectIgnoreFiles⟩
    rw [hfs] at hwalk
    rw [files, hwalk]
    rfl
  | ok fs =>
    rw [h.files_eq hfs, toOption_bind]
    change (((a.filesByName fs).map fun f => (a.root.down f.1, f.2)).mapM
      (fun f => a.resultOf f.1 f.2) >>= fun results =>
        pure (results.foldl LintResult.append .empty).sort).toOption = _
    rw [toOption_bind, toOption_mapM, List.mapM_map]
    exact (Option.map_eq_bind ..).symm

end RootedAt

private theorem resultOf_toOption_congr {root p q : Path} (c : Content)
    (hseen : Path.relativeTo a.root p = Path.relativeTo root q) :
    (a.resultOf p c).toOption = ({ a with root := root }.resultOf q c).toOption := by
  unfold resultOf
  cases c.text? with
  | none => rfl
  | some source =>
    unfold violationsIn SourceFile.seenFrom
    dsimp only
    rw [hseen]
    cases a.frontend.parse source with
    | error failure => cases hstop : a.failOnParseError <;> rfl
    | ok parsed => rfl

private theorem reads_congr (f : Frontend) {p q : Path} (h : p.fileName? = q.fileName?) :
    f.reads p = f.reads q := by
  rw [Frontend.reads, Frontend.reads, Path.extension?, Path.extension?, h]

/-- An analysis has the same result from another root that leads to the same place, if its patterns do
not tell the roots apart. -/
theorem run_toOption_congr {root : Path} (h : a.RootedAt d place)
    (h' : { a with root := root }.RootedAt d place) (hname : a.root.fileName? = root.fileName?)
    (hexcludes : ∀ p ∈ a.excludes, ∀ names : List String, (∀ n ∈ names, Path.isName n = true) →
      p.isMatch (a.root.down names).text = p.isMatch (root.down names).text) :
    (a.run d).toOption = ({ a with root := root }.run d).toOption := by
  rw [h.run_toOption, h'.run_toOption]
  cases hfs : d.filesAt ⟨false, a.settings.scope.respectIgnoreFiles⟩ place with
  | error e => simp only [Except.toOption, Option.bind_none]
  | ok fs =>
    have hseen {f : List String × Content} (hf : f ∈ fs) :
        Path.relativeTo a.root (a.root.down f.1) = Path.relativeTo root (root.down f.1) := by
      rw [Path.relativeTo_down h.isAbsolute (h.isName hfs hf),
        Path.relativeTo_down h'.isAbsolute (h.isName hfs hf)]
    have hselects : ∀ f ∈ fs, a.selects (a.root.down f.1, f.2) =
        { a with root := root }.selects (root.down f.1, f.2) := by
      intro f hf
      have hreads : a.frontend.reads (a.root.down f.1) = a.frontend.reads (root.down f.1) := by
        apply reads_congr
        rw [Path.fileName?_down (h.isName hfs hf), Path.fileName?_down (h.isName hfs hf), hname]
      have hexcluded : a.isExcluded (a.root.down f.1) =
          { a with root := root }.isExcluded (root.down f.1) := by
        unfold isExcluded
        rw [Bool.eq_iff_iff, List.any_eq_true, List.any_eq_true]
        refine exists_congr fun p => and_congr_right fun hp => ?_
        rw [hseen hf, hexcludes p hp _ (h.isName hfs hf)]
      rw [selects, selects, hreads, hexcluded]
    have hfiles : a.filesByName fs = { a with root := root }.filesByName fs := by
      rw [filesByName, filesByName, List.filter_congr hselects]
    have hresults := mapM_congr (l := a.filesByName fs)
      (f := fun f => (a.resultOf (a.root.down f.1) f.2).toOption)
      (g := fun f => ({ a with root := root }.resultOf (root.down f.1) f.2).toOption) ?_
    · change Option.map _ ((a.filesByName fs).mapM _) = Option.map _ (List.mapM _ (filesByName _ fs))
      rw [hresults, hfiles]
    · intro f hf
      have hmem : f ∈ fs := (List.mem_filter.mp ((List.mergeSort_perm _ _).mem_iff.mp hf)).1
      exact resultOf_toOption_congr f.2 (hseen hmem)

private theorem file_of_mem_resultOf {p : Path} {c : Content} {r : LintResult} (hr : a.resultOf p c = .ok r)
    {v : Violation} (hv : v ∈ r.violations) :
    ∃ source, c = .text source ∧ v.location.file = Path.relativeTo a.root p := by
  unfold resultOf at hr
  cases c with
  | binary bytes => cases hr
  | text source =>
    refine ⟨source, rfl, ?_⟩
    rcases violationsIn_eq (a := a) p source with ⟨failure, _, hvs⟩ | ⟨_, vs, _, hvs, hfile⟩
    · simp only [Content.text?, hvs] at hr
      split at hr
      · cases hr
      · cases hr
        cases hv
    · simp only [Content.text?, hvs] at hr
      cases hr
      exact hfile v hv

private theorem violations_foldl (r : LintResult) (rs : List LintResult) :
    (rs.foldl LintResult.append r).violations = r.violations ++ rs.flatMap LintResult.violations := by
  induction rs generalizing r with
  | nil => simp
  | cons x rs ih => rw [List.foldl_cons, ih, List.flatMap_cons, LintResult.append, List.append_assoc]

/-- Every violation is in a file that is text, and carries its names from the root. -/
theorem RootedAt.exists_file (h : a.RootedAt d place) {r : LintResult} (hr : a.run d = .ok r)
    {v : Violation} (hv : v ∈ r.violations) :
    ∃ names source, FileTree.at? (place ++ names) d.tree = some (.file (.text source)) ∧
      (∀ n ∈ names, Path.isName n = true) ∧ v.location.file = Path.ofNames names := by
  have hoption := h.run_toOption
  rw [hr] at hoption
  obtain ⟨fs, hfs, hoption⟩ := Option.bind_eq_some_iff.mp hoption.symm
  obtain ⟨rs, hrs, rfl⟩ := Option.map_eq_some_iff.mp hoption
  rw [toOption_eq_some_iff] at hfs
  -- Sorting and appending lose no violation and make none up.
  have hv : v ∈ (rs.foldl LintResult.append .empty).violations :=
    (List.mergeSort_perm _ _).mem_iff.mp hv
  rw [violations_foldl, LintResult.empty, List.nil_append, List.mem_flatMap] at hv
  obtain ⟨x, hx, hv⟩ := hv
  obtain ⟨f, hf, hfx⟩ := mem_of_mapM_eq_some hrs hx
  have hf : f ∈ fs := (List.mem_filter.mp ((List.mergeSort_perm _ _).mem_iff.mp hf)).1
  obtain ⟨source, hsource, hfile⟩ := file_of_mem_resultOf (toOption_eq_some_iff.mp hfx) hv
  refine ⟨f.1, source, ?_, h.isName hfs hf, ?_⟩
  · rw [Disk.at?_of_mem_filesAt h.proper hfs hf, hsource]
  · rw [hfile, Path.relativeTo_down h.isAbsolute (h.isName hfs hf)]

end Analysis
end CoroutineCheck

import CoroutineCheck.Cli.Check
import CoroutineCheck.Proofs.Analysis.Roots
import CoroutineCheck.Proofs.Fix.Batch
/-!
# Repairs

The fixes of a result are put together by file and applied file by file. Each file ends up with the text
that a batch of its own fixes makes of its old text, and the violations counted as gone are those whose
own fix is in the batch.
-/
namespace CoroutineCheck

private theorem Fix.text_of_applied_eq_nil {source : String} {fixes : List Fix}
    (h : (applyAll source fixes).applied = []) : (applyAll source fixes).text = source := by
  have haccepted : (triage source.toList 0 [] fixes).accepted = [] := by
    rw [triage_accepted, show (triage source.toList 0 [] fixes).applied = [] from h]
    rfl
  have hsplice : Edit.splice? source.toList [] = some source.toList := by
    simp [Edit.splice?, Edit.sort, Edit.spliceFrom?]
  rw [applyAll]
  simp [haccepted, hsplice]

namespace Cli
namespace FileFixes

variable {path : Path} {f : Nat × Fix} {groups : List FileFixes} {g : FileFixes}
  {items : List (Nat × Path × Fix)}

/-- In path order, no path twice. -/
def Ordered (groups : List FileFixes) : Prop :=
  groups.Pairwise fun g h => g.path.compare h.path = .lt

/-- A fix joins the others of its file, or starts a file. -/
private theorem mem_insert_iff (path : Path) (f : Nat × Fix) (h : Ordered groups) :
    g ∈ insert path f groups ↔
      g ∈ groups ∧ path.compare g.path ≠ .eq ∨
        (∃ old ∈ groups, path.compare old.path = .eq ∧ g = ⟨old.path, old.fixes ++ [f]⟩) ∨
        (∀ old ∈ groups, path.compare old.path ≠ .eq) ∧ g = ⟨path, [f]⟩ := by
  induction groups with
  | nil => simp [insert]
  | cons first rest ih =>
    obtain ⟨hfirst, hrest⟩ := List.pairwise_cons.mp h
    rw [insert]
    split
    case h_1 hlt =>
      have hne : ∀ old ∈ rest, path.compare old.path ≠ .eq :=
        fun old hold => by simp [Std.TransCmp.lt_trans hlt (hfirst old hold)]
      grind
    case h_2 heq =>
      have hne : ∀ old ∈ rest, path.compare old.path ≠ .eq :=
        fun old hold => by simp [Std.TransCmp.lt_of_eq_of_lt heq (hfirst old hold)]
      grind
    case h_3 hgt =>
      rw [List.mem_cons, ih hrest]
      grind

theorem Ordered.insert (path : Path) (f : Nat × Fix) (h : Ordered groups) :
    Ordered (insert path f groups) := by
  induction groups with
  | nil => exact List.pairwise_singleton ..
  | cons first rest ih =>
    obtain ⟨hfirst, hrest⟩ := List.pairwise_cons.mp h
    rw [FileFixes.insert]
    split
    case h_1 hlt =>
      refine List.pairwise_cons.mpr ⟨List.forall_mem_cons.mpr ⟨hlt, ?_⟩, h⟩
      exact fun g hg => Std.TransCmp.lt_trans hlt (hfirst g hg)
    case h_2 => exact List.pairwise_cons.mpr ⟨hfirst, hrest⟩
    case h_3 hgt =>
      refine List.pairwise_cons.mpr ⟨?_, ih hrest⟩
      intro g hg
      rcases (mem_insert_iff path f hrest).mp hg with ⟨hold, _⟩ | ⟨old, hold, _, rfl⟩ | ⟨_, rfl⟩
      · exact hfirst g hold
      · exact hfirst old hold
      · exact Std.OrientedCmp.gt_iff_lt.mp hgt

def fixesFor (items : List (Nat × Path × Fix)) (path : Path) : List (Nat × Fix) :=
  (items.filter (·.2.1.compare path == .eq)).map fun x => (x.1, x.2.2)

private theorem fixesFor_concat_of_eq {x : Nat × Path × Fix} (h : x.2.1.compare path = .eq) :
    fixesFor (items ++ [x]) path = fixesFor items path ++ [(x.1, x.2.2)] := by
  simp [fixesFor, h]

private theorem fixesFor_concat_of_ne {x : Nat × Path × Fix} (h : x.2.1.compare path ≠ .eq) :
    fixesFor (items ++ [x]) path = fixesFor items path := by
  simp [fixesFor, h]

structure Grouped (items : List (Nat × Path × Fix)) (groups : List FileFixes) : Prop where
  ordered : Ordered groups
  fixes_eq : ∀ g ∈ groups, g.fixes = fixesFor items g.path
  path_mem : ∀ g ∈ groups, ∃ x ∈ items, x.2.1 = g.path
  total : ∀ x ∈ items, ∃ g ∈ groups, x.2.1.compare g.path = .eq

theorem Grouped.insert (h : Grouped items groups) (x : Nat × Path × Fix) :
    Grouped (items ++ [x]) (insert x.2.1 (x.1, x.2.2) groups) where
  ordered := h.ordered.insert ..
  fixes_eq g hg := by
    rcases (mem_insert_iff _ _ h.ordered).mp hg with ⟨hold, hne⟩ | ⟨old, hold, heq, rfl⟩ | ⟨hne, rfl⟩
    · rw [fixesFor_concat_of_ne hne, h.fixes_eq g hold]
    · rw [fixesFor_concat_of_eq heq, h.fixes_eq old hold]
    · -- A file that is new has no fix so far.
      have hnone : fixesFor items x.2.1 = [] := by
        rw [fixesFor, List.map_eq_nil_iff, List.filter_eq_nil_iff]
        intro y hy hyx
        obtain ⟨g, hg, hyg⟩ := h.total y hy
        exact hne g hg (Std.TransCmp.eq_trans (Std.OrientedCmp.eq_symm (beq_iff_eq.mp hyx)) hyg)
      rw [fixesFor_concat_of_eq Std.ReflCmp.compare_self, hnone, List.nil_append]
  path_mem g hg := by
    rcases (mem_insert_iff _ _ h.ordered).mp hg with ⟨hold, _⟩ | ⟨old, hold, _, rfl⟩ | ⟨_, rfl⟩
    · obtain ⟨y, hy, hpath⟩ := h.path_mem g hold
      exact ⟨y, by simp [hy], hpath⟩
    · obtain ⟨y, hy, hpath⟩ := h.path_mem old hold
      exact ⟨y, by simp [hy], hpath⟩
    · exact ⟨x, by simp, rfl⟩
  total y hy := by
    simp only [mem_insert_iff _ _ h.ordered]
    have hself : x.2.1.compare x.2.1 = .eq := Std.ReflCmp.compare_self
    rcases List.mem_append.mp hy with hy | hy
    · obtain ⟨g, hg, hyg⟩ := h.total y hy
      by_cases hxg : x.2.1.compare g.path = .eq
      · exact ⟨_, .inr (.inl ⟨g, hg, hxg, rfl⟩), hyg⟩
      · exact ⟨g, .inl ⟨hg, hxg⟩, hyg⟩
    · rw [List.mem_singleton.mp hy]
      by_cases hx : ∃ old ∈ groups, x.2.1.compare old.path = .eq
      · obtain ⟨old, hold, heq⟩ := hx
        exact ⟨_, .inr (.inl ⟨old, hold, heq, rfl⟩), heq⟩
      · push Not at hx
        exact ⟨_, .inr (.inr ⟨hx, rfl⟩), hself⟩

private theorem grouped_ofResult (root : Path) (r : LintResult) :
    Grouped (fixable root r.violations) (ofResult root r) := by
  unfold ofResult
  induction fixable root r.violations using List.reverseRecOn with
  | nil => exact ⟨.nil, by simp, by simp, by simp⟩
  | append_singleton items x ih =>
    rw [List.foldl_append]
    exact ih.insert x

section Apply

variable {d : Disk} {source : String}

def mended? (d : Disk) (g : FileFixes) : Option FixedFile := (g.apply d).toOption.join

private theorem mended?_congr {d' : Disk} (h : d.read? g.path = d'.read? g.path) :
    g.mended? d = g.mended? d' := by
  rw [mended?, mended?, apply, apply, h]

private theorem apply_eq_ok (h : (d.read? g.path).isSome = true) : g.apply d = .ok (g.mended? d) := by
  obtain ⟨source, hsource⟩ := Option.isSome_iff_exists.mp h
  unfold mended? apply
  rw [hsource]
  dsimp only
  split <;> rfl

private theorem mended?_eq_some_iff (h : d.read? g.path = some source) {file : FixedFile} :
    g.mended? d = some file ↔
      let batch := Fix.applyAll source (g.fixes.map Prod.snd)
      batch.applied ≠ [] ∧
        file = ⟨g.path, batch.text, batch.applied.filterMap fun i => g.fixes[i]?.map Prod.fst⟩ := by
  unfold mended? apply
  rw [h]
  dsimp only
  split
  case isTrue hempty => simp_all [Except.toOption]
  case isFalse hsome =>
    rw [List.isEmpty_iff] at hsome
    simp [hsome, Except.toOption, eq_comm]

end Apply
end FileFixes

/-- Files that are all readable and stand at different places are fixed independently. -/
theorem Repairs.run_eq {d : Disk} {groups : List FileFixes}
    (hread : ∀ g ∈ groups, (d.read? g.path).isSome = true)
    (hapart : groups.Pairwise fun g h => d.locate? g.path ≠ d.locate? h.path) :
    Repairs.run d groups = ⟨groups.filterMap (·.mended? d), Option.none⟩ := by
  induction groups generalizing d with
  | nil => rfl
  | cons g rest ih =>
    rw [List.forall_mem_cons] at hread
    rw [List.pairwise_cons] at hapart
    rw [Repairs.run, FileFixes.apply_eq_ok hread.1, List.filterMap_cons]
    cases hmended : g.mended? d with
    | none => exact ih hread.2 hapart.2
    | some file =>
      obtain ⟨source, hsource⟩ := Option.isSome_iff_exists.mp hread.1
      have hfile := ((FileFixes.mended?_eq_some_iff hsource).mp hmended).2
      have hpath : file.path = g.path := by rw [hfile]
      obtain ⟨place, hplace, hcontent⟩ := Disk.read?_eq_some_iff.mp hsource
      have hold : d.content? file.path = some (.text source) := by
        rw [hpath, Disk.content?, hplace]
        exact hcontent
      -- The other files are read as before.
      have hsame : ∀ g' ∈ rest, (d.write file.path file.text).read? g'.path = d.read? g'.path := by
        intro g' hg'
        rw [Disk.read?_eq, Disk.read?_eq, Disk.content?_write_of_ne hold]
        rw [hpath]
        exact (hapart.1 g' hg').symm
      have hrest := ih (d := d.write file.path file.text)
        (fun g' hg' => (hsame g' hg') ▸ hread.2 g' hg')
        (by simpa only [Disk.locate?_write hold] using hapart.2)
      have hmend : rest.filterMap (·.mended? (d.write file.path file.text)) =
          rest.filterMap (·.mended? d) :=
        List.filterMap_congr fun g' hg' => FileFixes.mended?_congr (hsame g' hg')
      simp only [hrest, hmend]

/-- The fixes of the violations in the file at a place, each with the position of its violation, in the
order of the result. -/
def fixesAt (d : Disk) (root : Path) (vs : List Violation) (place : List String) : List (Nat × Fix) :=
  vs.zipIdx.filterMap fun x =>
    if d.locate? (sourcePath root x.1.location.file) = some place then x.1.fix.map (x.2, ·) else none

/-- Files with fixes can be read, and are the same file only if their paths are the same. Trees have no
symbolic links, through which two different paths of a result could lead to one file. -/
structure Mendable (d : Disk) (root : Path) (vs : List Violation) : Prop where
  readable : ∀ v ∈ vs, v.fix.isSome = true →
    (d.read? (sourcePath root v.location.file)).isSome = true
  apart : ∀ v ∈ vs, ∀ w ∈ vs, v.fix.isSome = true → w.fix.isSome = true →
    d.locate? (sourcePath root v.location.file) = d.locate? (sourcePath root w.location.file) →
    (sourcePath root v.location.file).compare (sourcePath root w.location.file) = .eq

section Mendable

variable {d : Disk} {root : Path} {r : LintResult} {g : FileFixes} {place : List String}

private theorem mem_fixable_iff {vs : List Violation} {x : Nat × Path × Fix} :
    x ∈ fixable root vs ↔
      ∃ v, vs[x.1]? = some v ∧ v.fix = some x.2.2 ∧ x.2.1 = sourcePath root v.location.file := by
  simp only [fixable, List.mem_filterMap, List.mem_zipIdx_iff_getElem?, Option.map_eq_some_iff]
  constructor
  · rintro ⟨⟨v, i⟩, hv, f, hf, rfl⟩
    exact ⟨v, hv, hf, rfl⟩
  · obtain ⟨i, p, f⟩ := x
    rintro ⟨v, hv, hf, rfl⟩
    exact ⟨⟨v, i⟩, hv, f, hf, rfl⟩

private theorem exists_violation_of_mem_ofResult (hg : g ∈ FileFixes.ofResult root r) :
    ∃ v ∈ r.violations, v.fix.isSome = true ∧ g.path = sourcePath root v.location.file := by
  obtain ⟨x, hx, hpath⟩ := (FileFixes.grouped_ofResult root r).path_mem g hg
  obtain ⟨v, hv, hfix, hx⟩ := mem_fixable_iff.mp hx
  exact ⟨v, List.mem_of_getElem? hv, by simp [hfix], hpath.symm.trans hx⟩

variable (h : Mendable d root r.violations)
include h

theorem Mendable.read? (hg : g ∈ FileFixes.ofResult root r) : (d.read? g.path).isSome = true := by
  obtain ⟨v, hv, hfix, hpath⟩ := exists_violation_of_mem_ofResult hg
  rw [hpath]
  exact h.readable v hv hfix

theorem Mendable.pairwise : (FileFixes.ofResult root r).Pairwise fun g g' =>
    d.locate? g.path ≠ d.locate? g'.path := by
  refine (FileFixes.grouped_ofResult root r).ordered.imp_of_mem ?_
  intro g g' hg hg' hlt hplace
  obtain ⟨v, hv, hvfix, hvpath⟩ := exists_violation_of_mem_ofResult hg
  obtain ⟨w, hw, hwfix, hwpath⟩ := exists_violation_of_mem_ofResult hg'
  have heq := h.apart v hv w hw hvfix hwfix (by rw [← hvpath, ← hwpath, hplace])
  rw [hvpath, hwpath, heq] at hlt
  cases hlt

private theorem Mendable.locate?_eq_iff (hg : g ∈ FileFixes.ofResult root r)
    (hplace : d.locate? g.path = some place) {v : Violation} (hv : v ∈ r.violations)
    (hfix : v.fix.isSome = true) :
    d.locate? (sourcePath root v.location.file) = some place ↔
      (sourcePath root v.location.file).compare g.path = .eq := by
  obtain ⟨w, hw, hwfix, hpath⟩ := exists_violation_of_mem_ofResult hg
  constructor
  · intro hv'
    rw [hpath]
    exact h.apart v hv w hw hfix hwfix (by rw [hv', ← hpath, hplace])
  · intro heq
    obtain ⟨source, hsource⟩ := Option.isSome_iff_exists.mp (h.readable v hv hfix)
    obtain ⟨other, hother, _⟩ := Disk.read?_eq_some_iff.mp hsource
    rw [hother, Disk.locate?_eq_of_components_eq (Path.compare_eq_iff.mp heq) hother hplace]

private theorem Mendable.fixes_eq (hg : g ∈ FileFixes.ofResult root r)
    (hplace : d.locate? g.path = some place) : g.fixes = fixesAt d root r.violations place := by
  rw [(FileFixes.grouped_ofResult root r).fixes_eq g hg, FileFixes.fixesFor, fixable,
    List.filter_filterMap, List.map_filterMap, fixesAt]
  apply List.filterMap_congr
  rintro ⟨v, i⟩ hv
  have hmem : v ∈ r.violations := List.mem_of_getElem? (List.mem_zipIdx_iff_getElem?.mp hv)
  cases hfix : v.fix with
  | none => simp
  | some f =>
    have hiff := h.locate?_eq_iff hg hplace hmem (by simp [hfix])
    simp only [hiff]
    split <;> simp_all

end Mendable

def mendedContent (fixes : List Fix) : Content → Content
  | .text source => .text (Fix.applyAll source fixes).text
  | .binary bytes => .binary bytes

/-- Whether a violation's own fix is in the batch that is applied to its file. -/
def IsMended (d : Disk) (root : Path) (vs : List Violation) (i : Nat) : Prop :=
  ∃ v f place source j, vs[i]? = some v ∧ v.fix = some f ∧
    d.locate? (sourcePath root v.location.file) = some place ∧
    FileTree.contentAt place d.tree = some (.text source) ∧
    (fixesAt d root vs place)[j]? = some (i, f) ∧
    j ∈ (Fix.applyAll source ((fixesAt d root vs place).map Prod.snd)).applied

section Exact

variable {d : Disk} {root : Path} {r : LintResult} {g : FileFixes} {place : List String}

private theorem mem_fixesAt_iff {vs : List Violation} {x : Nat × Fix} :
    x ∈ fixesAt d root vs place ↔ ∃ v, vs[x.1]? = some v ∧ v.fix = some x.2 ∧
      d.locate? (sourcePath root v.location.file) = some place := by
  simp only [fixesAt, List.mem_filterMap, List.mem_zipIdx_iff_getElem?]
  constructor
  · rintro ⟨⟨v, i⟩, hv, hx⟩
    split at hx
    case isFalse => cases hx
    case isTrue hplace =>
      obtain ⟨f, hfix, rfl⟩ := Option.map_eq_some_iff.mp hx
      exact ⟨v, hv, hfix, hplace⟩
  · rintro ⟨v, hv, hfix, hplace⟩
    exact ⟨⟨v, x.1⟩, hv, by simp [hplace, hfix]⟩

private theorem Mendable.exists_group (h : Mendable d root r.violations)
    (hne : fixesAt d root r.violations place ≠ []) :
    ∃ g ∈ FileFixes.ofResult root r, d.locate? g.path = some place := by
  obtain ⟨x, hx⟩ := List.exists_mem_of_ne_nil _ hne
  obtain ⟨v, hv, hfix, hplace⟩ := mem_fixesAt_iff.mp hx
  obtain ⟨g, hg, heq⟩ := (FileFixes.grouped_ofResult root r).total
    (x.1, sourcePath root v.location.file, x.2) (mem_fixable_iff.mpr ⟨v, hv, hfix, rfl⟩)
  refine ⟨g, hg, ?_⟩
  obtain ⟨source, hsource⟩ := Option.isSome_iff_exists.mp (h.read? hg)
  obtain ⟨other, hother, _⟩ := Disk.read?_eq_some_iff.mp hsource
  rw [hother, Disk.locate?_eq_of_components_eq (Path.compare_eq_iff.mp heq) hplace hother]

/-- A file is written exactly if a fix applies to it, with the text that its batch makes. -/
private theorem Mendable.mem_files_iff (h : Mendable d root r.violations) {file : FixedFile} :
    file ∈ (Repairs.run d (FileFixes.ofResult root r)).files ↔
      ∃ g ∈ FileFixes.ofResult root r, ∃ place source, d.locate? g.path = some place ∧
        FileTree.contentAt place d.tree = some (.text source) ∧
        let fixes := fixesAt d root r.violations place
        let batch := Fix.applyAll source (fixes.map Prod.snd)
        batch.applied ≠ [] ∧
          file = ⟨g.path, batch.text, batch.applied.filterMap fun i => fixes[i]?.map Prod.fst⟩ := by
  rw [Repairs.run_eq (fun g hg => h.read? hg) h.pairwise, List.mem_filterMap]
  constructor
  · rintro ⟨g, hg, hfile⟩
    obtain ⟨source, hsource⟩ := Option.isSome_iff_exists.mp (h.read? hg)
    obtain ⟨place, hplace, hcontent⟩ := Disk.read?_eq_some_iff.mp hsource
    rw [FileFixes.mended?_eq_some_iff hsource, h.fixes_eq hg hplace] at hfile
    exact ⟨g, hg, place, source, hplace, hcontent, hfile⟩
  · rintro ⟨g, hg, place, source, hplace, hcontent, hfile⟩
    refine ⟨g, hg, ?_⟩
    rwa [FileFixes.mended?_eq_some_iff (Disk.read?_eq_some_iff.mpr ⟨place, hplace, hcontent⟩),
      h.fixes_eq hg hplace]

theorem Mendable.exists_file (h : Mendable d root r.violations) {source : String}
    (hcontent : FileTree.contentAt place d.tree = some (.text source)) :
    let fixes := fixesAt d root r.violations place
    let batch := Fix.applyAll source (fixes.map Prod.snd)
    batch.applied ≠ [] → ∃ file ∈ (Repairs.run d (FileFixes.ofResult root r)).files,
      d.locate? file.path = some place ∧ file.text = batch.text ∧
        file.gone = batch.applied.filterMap fun i => fixes[i]?.map Prod.fst := by
  intro fixes batch happlied
  have hne : fixes ≠ [] := by
    intro hnil
    apply happlied
    simp only [batch, hnil]
    rfl
  obtain ⟨g, hg, hplace⟩ := h.exists_group hne
  exact ⟨_, h.mem_files_iff.mpr ⟨g, hg, place, source, hplace, hcontent, happlied, rfl⟩, hplace, rfl, rfl⟩

private theorem Mendable.files_pairwise (h : Mendable d root r.violations) :
    (Repairs.run d (FileFixes.ofResult root r)).files.Pairwise fun f f' =>
      d.locate? f.path ≠ d.locate? f'.path := by
  have hpath : ∀ {g file}, FileFixes.mended? d g = some file → file.path = g.path := by
    intro g file hfile
    cases hsource : d.read? g.path with
    | none => simp [FileFixes.mended?, FileFixes.apply, hsource, Except.toOption] at hfile
    | some source => rw [((FileFixes.mended?_eq_some_iff hsource).mp hfile).2]
  rw [Repairs.run_eq (fun g hg => h.read? hg) h.pairwise]
  refine List.Pairwise.filterMap _ ?_ h.pairwise
  intro g g' hne file hfile file' hfile'
  rwa [hpath hfile, hpath hfile']

theorem Mendable.contentAt_eq (h : Mendable d root r.violations) (place : List String) :
    FileTree.contentAt place (d.writeAll ((Repairs.run d (FileFixes.ofResult root r)).files.map
        fun f => (f.path, f.text))).tree =
      (FileTree.contentAt place d.tree).map
        (mendedContent ((fixesAt d root r.violations place).map Prod.snd)) := by
  have hcontent : ∀ w ∈ (Repairs.run d (FileFixes.ofResult root r)).files.map
      (fun f => (f.path, f.text)), (d.content? w.1).isSome = true := by
    simp only [List.forall_mem_map]
    intro file hfile
    obtain ⟨g, hg, place, source, hplace, hcontent, _, rfl⟩ := h.mem_files_iff.mp hfile
    rw [Disk.content?, hplace, Option.bind_some, hcontent]
    rfl
  by_cases hfile : ∃ file ∈ (Repairs.run d (FileFixes.ofResult root r)).files,
      d.locate? file.path = some place
  · obtain ⟨file, hmem, hplace⟩ := hfile
    rw [Disk.contentAt_writeAll_of_mem hcontent (List.pairwise_map.mpr h.files_pairwise)
      (List.mem_map_of_mem hmem) hplace]
    obtain ⟨g, hg, other, source, hother, hsource, _, rfl⟩ := h.mem_files_iff.mp hmem
    obtain rfl : other = place := Option.some_inj.mp (hother.symm.trans hplace)
    rw [hsource]
    rfl
  · rw [Disk.contentAt_writeAll_of_ne hcontent]
    · -- Nothing is written here, so no fix applies here.
      cases hold : FileTree.contentAt place d.tree with
      | none => rfl
      | some c =>
        cases c with
        | binary bytes => rfl
        | text source =>
          have hnone : (Fix.applyAll source
              ((fixesAt d root r.violations place).map Prod.snd)).applied = [] := by
            by_contra happlied
            obtain ⟨file, hmem, hplace, _⟩ := h.exists_file hold happlied
            exact hfile ⟨file, hmem, hplace⟩
          rw [Option.map_some, mendedContent, Fix.text_of_applied_eq_nil hnone]
    · simp only [List.forall_mem_map]
      exact fun file hmem hplace => hfile ⟨file, hmem, hplace⟩

private theorem Mendable.not_written (h : Mendable d root r.violations) {source : String}
    (hsource : FileTree.contentAt place d.tree = some (.text source))
    (hnone : (Fix.applyAll source ((fixesAt d root r.violations place).map Prod.snd)).applied = []) :
    ∀ w ∈ (Repairs.run d (FileFixes.ofResult root r)).files.map (fun f => (f.path, f.text)),
      d.locate? w.1 ≠ some place := by
  simp only [List.forall_mem_map]
  intro file hfile hplace
  obtain ⟨g, hg, other, text, hother, htext, happlied, rfl⟩ := h.mem_files_iff.mp hfile
  obtain rfl : other = place := Option.some_inj.mp (hother.symm.trans hplace)
  obtain rfl : text = source := by simpa [htext] using hsource
  exact happlied hnone

theorem Mendable.mem_gone_iff (h : Mendable d root r.violations) (i : Nat) :
    i ∈ (Repairs.run d (FileFixes.ofResult root r)).gone ↔ IsMended d root r.violations i := by
  rw [Repairs.gone, List.mem_flatMap]
  constructor
  · rintro ⟨file, hfile, hi⟩
    obtain ⟨g, hg, place, source, hplace, hcontent, _, rfl⟩ := h.mem_files_iff.mp hfile
    obtain ⟨j, hj, hji⟩ := List.mem_filterMap.mp hi
    obtain ⟨x, hx, rfl⟩ := Option.map_eq_some_iff.mp hji
    obtain ⟨v, hv, hfix, hvplace⟩ := mem_fixesAt_iff.mp (List.mem_of_getElem? hx)
    exact ⟨v, x.2, place, source, j, hv, hfix, hvplace, hcontent, hx, hj⟩
  · rintro ⟨v, f, place, source, j, hv, hfix, hplace, hcontent, hx, hj⟩
    obtain ⟨file, hfile, _, _, hgone⟩ := h.exists_file hcontent (List.ne_nil_of_mem hj)
    refine ⟨file, hfile, ?_⟩
    rw [hgone, List.mem_filterMap]
    exact ⟨j, hj, by rw [hx]; rfl⟩

end Exact

section Found

variable {a : Analysis} {d : Disk} {root : Path} {place names : List String} {r : LintResult}

private theorem sourcePath_ofNames (h : ∀ n ∈ names, Path.isName n = true) :
    sourcePath root (Path.ofNames names) = root.down names := by
  by_cases hne : names = []
  · subst hne
    rfl
  · have hempty : (Path.ofNames names).text.isEmpty = false := by
      rw [Bool.eq_false_iff]
      intro hempty
      exact Path.toList_ofNames_ne_nil h hne
        (String.toList_eq_nil_iff.mpr (String.isEmpty_iff.mp hempty))
    rw [sourcePath, hempty]
    exact Path.join_ofNames h hne

theorem locate?_sourcePath (hroot : d.locate? root = some place)
    (h : ∀ n ∈ names, Path.isName n = true)
    (hat : (FileTree.at? (place ++ names) d.tree).isSome = true) :
    d.locate? (sourcePath root (Path.ofNames names)) = some (place ++ names) := by
  rw [sourcePath_ofNames h]
  by_cases hne : names = []
  · subst hne
    rw [Path.down_nil, hroot, List.append_nil]
  · have hplace : (FileTree.at? place d.tree).isSome = true := by
      rw [FileTree.at?_append] at hat
      exact Option.isSome_of_isSome_bind hat
    rw [Disk.locate?_down_of_start? (Disk.start?_of_locate? hroot) hplace h hne, if_pos hat]

/-- Whatever an analysis finds can be fixed in the files where it is found. -/
theorem mendable_of_run (h : a.RootedAt d place) (hr : a.run d = .ok r) :
    Mendable d a.root r.violations where
  readable v hv _ := by
    obtain ⟨names, source, hat, hnames, hfile⟩ := h.exists_file hr hv
    rw [hfile, Option.isSome_iff_exists]
    refine ⟨source, Disk.read?_eq_some_iff.mpr ⟨place ++ names, ?_, ?_⟩⟩
    · exact locate?_sourcePath h.locate? hnames (by simp [hat])
    · simp [FileTree.contentAt, hat, FileTree.content?]
  apart v hv w hw _ _ hplace := by
    obtain ⟨names, _, hat, hnames, hfile⟩ := h.exists_file hr hv
    obtain ⟨names', _, hat', hnames', hfile'⟩ := h.exists_file hr hw
    rw [hfile, hfile', locate?_sourcePath h.locate? hnames (by simp [hat]),
      locate?_sourcePath h.locate? hnames' (by simp [hat']), Option.some_inj,
      List.append_cancel_left_eq] at hplace
    rw [hfile, hfile', hplace]
    exact Std.ReflCmp.compare_self

end Found

theorem remains_iff {threshold : Severity} {vs : List Violation} {gone : List Nat} :
    remains threshold vs gone = true ↔
      ∃ i v, vs[i]? = some v ∧ v.severity.atLeast threshold = true ∧ i ∉ gone := by
  simp only [remains, List.any_eq_true, List.mem_zipIdx_iff_getElem?, Bool.and_eq_true,
    Bool.not_eq_true', List.contains_eq_mem, decide_eq_false_iff_not]
  constructor
  · rintro ⟨⟨v, i⟩, hv, hseverity, hgone⟩
    exact ⟨i, v, hv, hseverity, hgone⟩
  · rintro ⟨i, v, hv, hseverity, hgone⟩
    exact ⟨⟨v, i⟩, hv, hseverity, hgone⟩

/-- Repairs are exact. Whatever an analysis finds in a proper tree is mendable. After a check that fixes
a mendable result, each file has the text that the batch of the fixes of its own violations, taken in
the order of the result, makes of its old text. A file of which no fix applies is not written. The
violations counted as gone are those whose own fix is in the batch of their file, and the check fails
exactly if another one is at or above the threshold. -/
theorem CheckResult.repairs_exact (d : Disk) (r : LintResult) :
    (∀ a place, Analysis.RootedAt a d place → a.run d = .ok r → Mendable d a.root r.violations) ∧
    ∀ root threshold format, Mendable d root r.violations →
    let c := CheckResult.ofAnalysis d root true threshold r
    let o := c.outcome format
    (∀ place, FileTree.contentAt place (o.diskAfter d).tree =
      (FileTree.contentAt place d.tree).map
        (mendedContent ((fixesAt d root r.violations place).map Prod.snd))) ∧
    (∀ place source, FileTree.contentAt place d.tree = some (.text source) →
      (Fix.applyAll source ((fixesAt d root r.violations place).map Prod.snd)).applied = [] →
      FileTree.contentAt place (o.diskAfter d).tree = some (.text source) ∧
        ∀ w ∈ o.writes, d.locate? w.1 ≠ some place) ∧
    (∀ i, i ∈ c.repairs.gone ↔ IsMended d root r.violations i) ∧
    o.failure = none ∧
    (o.status = 1 ↔ ∃ i v, r.violations[i]? = some v ∧ v.severity.atLeast threshold = true ∧
      ¬IsMended d root r.violations i) := by
  refine ⟨fun a place hrooted hrun => mendable_of_run hrooted hrun, ?_⟩
  intro root threshold format h c o
  have hfailure : o.failure = none := by
    change (Repairs.run d (FileFixes.ofResult root r)).failure = none
    rw [Repairs.run_eq (fun g hg => h.read? hg) h.pairwise]
  have hgone : ∀ i, i ∈ c.repairs.gone ↔ IsMended d root r.violations i := h.mem_gone_iff
  refine ⟨h.contentAt_eq, ?_, hgone, hfailure, ?_⟩
  · intro place source hsource hnone
    refine ⟨?_, h.not_written hsource hnone⟩
    calc FileTree.contentAt place (o.diskAfter d).tree
      _ = (FileTree.contentAt place d.tree).map
          (mendedContent ((fixesAt d root r.violations place).map Prod.snd)) := h.contentAt_eq place
      _ = some (.text source) := by
        rw [hsource, Option.map_some, mendedContent, Fix.text_of_applied_eq_nil hnone]
  · have hstatus : o.status = if c.failed then 1 else 0 := by
      change (if c.repairs.failure.isSome || c.failed then 1 else 0) = _
      rw [show c.repairs.failure = none from hfailure]
      rfl
    simp only [← hgone]
    rw [hstatus, ← remains_iff]
    change (if c.failed = true then 1 else 0) = 1 ↔ c.failed = true
    cases c.failed <;> simp

namespace CheckResult

def foundIn (file : String) (fix : Option Fix) : Violation where
  code := "CORO-1"
  rule := "GlobalScopeUsage"
  severity := .warning
  location := ⟨⟨file⟩, 1, 1, 0, 11⟩
  message := "GlobalScope"
  fix := fix

def twoFilesDisk : Disk where
  tree := .dir [("app", .dir [("A.kt", .file (.text "GlobalScope.launch(Job())")),
    ("B.kt", .file (.text "GlobalScope.async()"))])]
  directory := []

/-- In one file the second of three fixes conflicts with the first. In the other the only fix is out of
bounds. -/
def twoFilesResult : LintResult where
  violations := [foundIn "B.kt" (some (.replace "scope" ⟨0, 99⟩ "scope")),
    foundIn "A.kt" (some (.replace "scope" ⟨0, 11⟩ "viewModelScope")),
    foundIn "./A.kt" (some (.replace "scope" ⟨0, 18⟩ "launch")),
    foundIn "A.kt" (some (.replace "job" ⟨19, 24⟩ ""))]
  filesChecked := 2

def oneFileDisk : Disk where
  tree := .dir [("app", .dir [("Main.kt", .file (.text Analysis.jobInGlobalScope))])]
  directory := []

theorem repairs_exact_twoFiles :
    (∃ r, Analysis.bothRules.run oneFileDisk = .ok r ∧
      Mendable oneFileDisk Analysis.bothRules.root r.violations) ∧
    Mendable twoFilesDisk ⟨"/app"⟩ twoFilesResult.violations ∧
    let c := CheckResult.ofAnalysis twoFilesDisk ⟨"/app"⟩ true .warning twoFilesResult
    let o := c.outcome .text
    FileTree.contentAt ["app", "A.kt"] (o.diskAfter twoFilesDisk).tree =
        some (.text "viewModelScope.launch()") ∧
      FileTree.contentAt ["app", "B.kt"] (o.diskAfter twoFilesDisk).tree =
        some (.text "GlobalScope.async()") ∧
      (∀ i < 4, i ∈ c.repairs.gone ↔ i = 1 ∨ i = 3) ∧ o.status = 1 := by
  obtain ⟨r, hrun⟩ : ∃ r, (Analysis.bothRules.run oneFileDisk).toOption = some r :=
    Option.isSome_iff_exists.mp (by decide +kernel)
  have hrooted : Analysis.bothRules.RootedAt oneFileDisk ["app"] :=
    ⟨by decide +kernel, by decide, by decide +kernel⟩
  have hmendable : Mendable twoFilesDisk ⟨"/app"⟩ twoFilesResult.violations :=
    ⟨by decide +kernel, by decide +kernel⟩
  obtain ⟨hcontent, hkept, hgone, -, hstatus⟩ := (CheckResult.repairs_exact twoFilesDisk twoFilesResult).2
    ⟨"/app"⟩ .warning .text hmendable
  refine ⟨⟨r, toOption_eq_some_iff.mp hrun, (CheckResult.repairs_exact oneFileDisk r).1 Analysis.bothRules
    ["app"] hrooted (toOption_eq_some_iff.mp hrun)⟩, hmendable, ?_, ?_, by decide +kernel, ?_⟩
  · rw [hcontent]
    -- The edits of the two fixes that fit together stand in order.
    have hsorted : (Fix.triage "GlobalScope.launch(Job())".toList 0 []
        ((fixesAt twoFilesDisk ⟨"/app"⟩ twoFilesResult.violations ["app", "A.kt"]).map
          Prod.snd)).accepted.Pairwise fun a b => a.span.before b.span = true := by decide +kernel
    change some (Content.text (Fix.applyAll "GlobalScope.launch(Job())" _).text) = _
    rw [Fix.applyAll, Edit.splice?, Edit.sort, List.mergeSort_of_pairwise hsorted]
    decide +kernel
  · exact (hkept ["app", "B.kt"] _ (by decide +kernel) (by decide +kernel)).1
  · rw [hstatus]
    refine ⟨2, _, rfl, rfl, ?_⟩
    rw [← hgone]
    decide +kernel

end CheckResult

end Cli
end CoroutineCheck

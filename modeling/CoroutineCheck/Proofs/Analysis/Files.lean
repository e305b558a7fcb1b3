import CoroutineCheck.Proofs.Lists.Failure
import CoroutineCheck.Proofs.Report.Order
import CoroutineCheck.Proofs.Rules.Independence
import Mathlib.Data.List.Flatten
/-!
# Files are analysed one by one

An analysis takes its files in path order, appends what it finds in each, and sorts all of it in the end.
Since the violations of a file carry its path, and no two files have the same one, the sort leaves every
file a block of its own in which only its own lines and columns count. So the blocks of other files do
not matter, and a file that cannot be parsed might as well not be there.
-/
namespace CoroutineCheck

private theorem flatMap_filter_of_nil {α β : Type} {l : List α} {p : α → Bool} {g : α → List β}
    (h : ∀ x ∈ l, p x = false → g x = []) : (l.filter p).flatMap g = l.flatMap g := by
  induction l with
  | nil => rfl
  | cons x l ih =>
    have hrest := ih fun y hy => h y (List.mem_cons_of_mem x hy)
    cases hp : p x with
    | true => simp [hp, hrest]
    | false => simp [hp, hrest, h x List.mem_cons_self hp]

namespace LintResult

variable {α : Type}

theorem foldl_append (found : α → List Violation) (counts : α → Bool) (r : LintResult) (l : List α) :
    (l.map fun x => ⟨found x, if counts x then 1 else 0⟩).foldl append r =
      ⟨r.violations ++ l.flatMap found, r.filesChecked + l.countP counts⟩ := by
  induction l generalizing r with
  | nil => simp
  | cons x l ih =>
    rw [List.map_cons, List.foldl_cons, ih]
    cases hx : counts x with
    | true => simp [append, hx]; omega
    | false => simp [append, hx]

end LintResult

namespace Analysis

variable {a : Analysis} {d : Disk} {found files fs : List (Path × Content)} {f g : Path × Content}

def selects (a : Analysis) (f : Path × Content) : Bool :=
  a.frontend.reads f.1 && !a.isExcluded f.1

/-- The path of a file as violations carry it. -/
def seen (a : Analysis) (f : Path × Content) : Path := Path.relativeTo a.root f.1

def parses (a : Analysis) (f : Path × Content) : Bool :=
  ((f.2.text?.map a.frontend.parse).map Except.isOk).getD false

def violationsOf (a : Analysis) (f : Path × Content) : List Violation :=
  ((f.2.text?.map (a.violationsIn f.1)).bind Except.toOption).getD []

/-- The violations of one file by line and column. -/
def block (a : Analysis) (f : Path × Content) : List Violation :=
  (a.violationsOf f).mergeSort fun v w => (v.comparePosition w).isLE

def isIn (a : Analysis) (f : Path × Content) (v : Violation) : Bool :=
  v.location.file.compare (a.seen f) == .eq

/-- Files whose relative paths differ. -/
def Apart (a : Analysis) (f g : Path × Content) : Prop := (a.seen f).compare (a.seen g) ≠ .eq

instance : DecidableRel a.Apart :=
  fun f g => inferInstanceAs (Decidable ((a.seen f).compare (a.seen g) ≠ .eq))

def Readable (f : Path × Content) : Prop := f.2.text?.isSome = true

instance : DecidablePred Readable := fun f => inferInstanceAs (Decidable (f.2.text?.isSome = true))

theorem Apart.symm (h : a.Apart f g) : a.Apart g f :=
  fun heq => h (Std.OrientedCmp.eq_symm heq)

theorem violationsIn_eq (path : Path) (source : String) :
    (∃ failure, a.frontend.parse source = .error failure ∧
      a.violationsIn path source = .error (.parse path failure)) ∨
    ∃ parsed vs, a.frontend.parse source = .ok parsed ∧ a.violationsIn path source = .ok vs ∧
      ∀ v ∈ vs, v.location.file = Path.relativeTo a.root path := by
  unfold violationsIn
  cases a.frontend.parse source with
  | error failure => exact .inl ⟨failure, rfl, rfl⟩
  | ok parsed =>
    refine .inr ⟨parsed, _, rfl, rfl, ?_⟩
    intro v hv
    rw [SourceFile.violations_run] at hv
    obtain ⟨node, _, hv⟩ := List.mem_flatMap.mp hv
    obtain ⟨detector, _, hv⟩ := List.mem_flatMap.mp hv
    obtain ⟨report, _, rfl⟩ := List.mem_map.mp hv
    rfl

/-- What a file that is text gives: its violations if it can be parsed, and otherwise nothing. -/
private theorem violationsOf_cases (hf : Readable f) :
    (∃ source failure, f.2.text? = some source ∧ a.frontend.parse source = .error failure ∧
      a.violationsIn f.1 source = .error (.parse f.1 failure) ∧ a.parses f = false ∧
      a.violationsOf f = []) ∨
    ∃ source, f.2.text? = some source ∧ a.violationsIn f.1 source = .ok (a.violationsOf f) ∧
      a.parses f = true ∧ ∀ v ∈ a.violationsOf f, v.location.file = a.seen f := by
  obtain ⟨source, hsource⟩ := Option.isSome_iff_exists.mp hf
  rcases violationsIn_eq (a := a) f.1 source with
    ⟨failure, hparse, hvs⟩ | ⟨parsed, vs, hparse, hvs, hfile⟩
  · have hnone : a.parses f = false := by simp [parses, hsource, hparse, Except.isOk, Except.toBool]
    have hnil : a.violationsOf f = [] := by simp [violationsOf, hsource, hvs, Except.toOption]
    exact .inl ⟨source, failure, hsource, hparse, hvs, hnone, hnil⟩
  · have hok : a.parses f = true := by simp [parses, hsource, hparse, Except.isOk, Except.toBool]
    have heq : a.violationsOf f = vs := by simp [violationsOf, hsource, hvs, Except.toOption]
    rw [heq]
    exact .inr ⟨source, hsource, hvs, hok, hfile⟩

private theorem file_of_mem_violationsOf {v : Violation} (hf : Readable f) (hv : v ∈ a.violationsOf f) :
    v.location.file = a.seen f := by
  rcases violationsOf_cases (a := a) hf with ⟨_, _, _, _, _, _, hnil⟩ | ⟨_, _, _, _, hfile⟩
  · rw [hnil] at hv
    cases hv
  · exact hfile v hv

private theorem violationsOf_eq_nil (hf : Readable f) (h : a.parses f = false) : a.violationsOf f = [] := by
  rcases violationsOf_cases (a := a) hf with ⟨_, _, _, _, _, _, hnil⟩ | ⟨_, _, _, hok, _⟩
  · exact hnil
  · rw [h] at hok
    cases hok

private theorem resultOf_eq_ok (hf : Readable f) (h : a.failOnParseError = false ∨ a.parses f = true) :
    a.resultOf f.1 f.2 = .ok ⟨a.violationsOf f, if a.parses f then 1 else 0⟩ := by
  unfold resultOf
  rcases violationsOf_cases (a := a) hf with
    ⟨source, _, hsource, _, hvs, hnone, hnil⟩ | ⟨source, hsource, hvs, hok, _⟩
  · rw [hnone] at h
    have hgoOn : a.failOnParseError = false := by simpa using h
    simp only [hsource, hvs, hgoOn, hnone, hnil]
    rfl
  · simp only [hsource, hvs, hok]
    rfl

private theorem resultOf_eq_error {source : String} {failure : ParseFailure} (h : a.failOnParseError = true)
    (hsource : f.2.text? = some source) (hparse : a.frontend.parse source = .error failure) :
    a.resultOf f.1 f.2 = .error (.parse f.1 failure) := by
  have hvs : a.violationsIn f.1 source = .error (.parse f.1 failure) := by
    rw [violationsIn, hparse]
    rfl
  unfold resultOf
  simp only [hsource, hvs, h]
  rfl

theorem files_eq (hwalk : d.walk ⟨false, a.settings.scope.respectIgnoreFiles⟩ a.root = .ok found) :
    a.files d = .ok ((found.filter a.selects).mergeSort fun x y => x.1.le y.1) := by
  unfold files
  rw [hwalk]
  rfl

private theorem run_eq_ok (hfiles : a.files d = .ok fs) (hread : ∀ f ∈ fs, Readable f)
    (h : ∀ f ∈ fs, a.failOnParseError = false ∨ a.parses f = true) :
    a.run d = .ok (LintResult.sort ⟨fs.flatMap a.violationsOf, fs.countP a.parses⟩) := by
  have hmap : fs.mapM (fun f => a.resultOf f.1 f.2) =
      .ok (fs.map fun f => ⟨a.violationsOf f, if a.parses f then 1 else 0⟩) :=
    mapM_eq_ok fun f hf => resultOf_eq_ok (hread f hf) (h f hf)
  have hsum := LintResult.foldl_append a.violationsOf a.parses .empty fs
  simp only [LintResult.empty, List.nil_append, Nat.zero_add] at hsum
  unfold run
  rw [hfiles]
  change (fs.mapM (fun f => a.resultOf f.1 f.2) >>= fun results =>
    pure (results.foldl LintResult.append .empty).sort) = _
  rw [hmap]
  change Except.ok (LintResult.sort _) = _
  rw [LintResult.empty, hsum]

private theorem run_eq_error {pre post : List (Path × Content)} {source : String} {failure : ParseFailure}
    (hfiles : a.files d = .ok (pre ++ f :: post)) (hread : ∀ g ∈ pre, Readable g)
    (hpre : ∀ g ∈ pre, a.parses g = true) (h : a.failOnParseError = true)
    (hsource : f.2.text? = some source) (hparse : a.frontend.parse source = .error failure) :
    a.run d = .error (.parse f.1 failure) := by
  have hmap : (pre ++ f :: post).mapM (fun f => a.resultOf f.1 f.2) = .error (.parse f.1 failure) :=
    mapM_eq_error post (fun g hg => resultOf_eq_ok (hread g hg) (.inr (hpre g hg)))
      (resultOf_eq_error h hsource hparse)
  unfold run
  rw [hfiles]
  change ((pre ++ f :: post).mapM (fun f => a.resultOf f.1 f.2) >>= fun results =>
    pure (results.foldl LintResult.append .empty).sort) = _
  rw [hmap]
  rfl

private theorem mem_block {v : Violation} : v ∈ a.block f ↔ v ∈ a.violationsOf f :=
  (List.mergeSort_perm _ _).mem_iff

private theorem block_eq_nil (hf : Readable f) (h : a.parses f = false) : a.block f = [] := by
  rw [block, violationsOf_eq_nil hf h, List.mergeSort_nil]

private theorem isIn_of_mem {v : Violation} (hf : Readable f) (hv : v ∈ a.violationsOf f) :
    a.isIn g v = ((a.seen f).compare (a.seen g) == .eq) := by
  rw [isIn, file_of_mem_violationsOf hf hv]

/-- Of files that are apart, only one has the violations of one path. -/
private theorem filter_seen_eq (hapart : fs.Pairwise a.Apart) (hf : f ∈ fs) :
    fs.filter (fun g => (a.seen g).compare (a.seen f) == .eq) = [f] := by
  induction fs with
  | nil => cases hf
  | cons g fs ih =>
    obtain ⟨hhead, hapart⟩ := List.pairwise_cons.mp hapart
    rcases List.mem_cons.mp hf with rfl | hf
    · have hself : (a.seen f).compare (a.seen f) = .eq := Std.ReflCmp.compare_self
      have hrest : fs.filter (fun g => (a.seen g).compare (a.seen f) == .eq) = [] := by
        apply List.filter_eq_nil_iff.mpr
        intro g hg heq
        exact (hhead g hg).symm (beq_iff_eq.mp heq)
      simp [hself, hrest]
    · have hne : ((a.seen g).compare (a.seen f) == .eq) = false :=
        beq_eq_false_iff_ne.mpr (hhead f hf)
      rw [List.filter_cons, hne, ih hapart hf]
      rfl

private theorem Apart.of_perm {order : List (Path × Content)} (hapart : fs.Pairwise a.Apart)
    (hperm : order.Perm fs) : order.Pairwise a.Apart :=
  (hperm.pairwise_iff Apart.symm).mpr hapart

private theorem filter_seen_perm {order : List (Path × Content)} (hapart : fs.Pairwise a.Apart)
    (hperm : order.Perm fs) (p : Path) :
    order.filter (fun g => (a.seen g).compare p == .eq) =
      fs.filter (fun g => (a.seen g).compare p == .eq) := by
  have hpermFilter := hperm.filter fun g => (a.seen g).compare p == .eq
  cases hfs : fs.filter (fun g => (a.seen g).compare p == .eq) with
  | nil =>
    rw [hfs] at hpermFilter
    exact hpermFilter.eq_nil
  | cons f rest =>
    obtain ⟨hf, hp⟩ := List.mem_filter.mp (hfs ▸ List.mem_cons_self : f ∈ fs.filter _)
    -- All files with this path are the file `f`.
    have hsame (g : Path × Content) :
        ((a.seen g).compare p == .eq) = ((a.seen g).compare (a.seen f) == .eq) := by
      rw [Std.TransCmp.congr_right (Std.OrientedCmp.eq_symm (beq_iff_eq.mp hp))]
    simp only [hsame] at hfs hpermFilter ⊢
    rw [filter_seen_eq hapart hf] at hfs hpermFilter
    rw [hpermFilter.eq_singleton, hfs]

/-- Violations that are tied keep their order within a block. -/
private theorem filter_block (f : Path × Content) (v : Violation) :
    (a.block f).filter (v.compare · == .eq) = (a.violationsOf f).filter (v.compare · == .eq) := by
  apply filter_mergeSort
  intro w _ x _ hw hx
  have hw := (Violation.compare_eq_iff.mp (beq_iff_eq.mp hw)).2
  have hx := (Violation.compare_eq_iff.mp (beq_iff_eq.mp hx)).2
  exact Std.TransCmp.eq_trans (Std.OrientedCmp.eq_symm hw) hx

private theorem inOrder_flatMap_block {order : List (Path × Content)} (hread : ∀ f ∈ order, Readable f)
    (hsorted : order.Pairwise fun f g => (a.seen f).compare (a.seen g) = .lt) :
    InOrder Violation.compare (order.flatMap a.block) := by
  apply List.pairwise_flatMap.mpr
  constructor
  · intro f hf
    have hposition : InOrder Violation.comparePosition (a.block f) := inOrder_mergeSort _
    apply List.Pairwise.imp_of_mem _ hposition
    intro v w hv hw hle
    have hfile : v.compareFile w = .eq := by
      rw [Violation.compareFile, file_of_mem_violationsOf (hread f hf) (mem_block.mp hv),
        file_of_mem_violationsOf (hread f hf) (mem_block.mp hw)]
      exact Std.ReflCmp.compare_self
    rw [Violation.compare, compareLex, hfile]
    exact hle
  · apply List.Pairwise.imp_of_mem _ hsorted
    intro f g hf hg hlt v hv w hw
    have hfile : v.compareFile w = .lt := by
      rw [Violation.compareFile, file_of_mem_violationsOf (hread f hf) (mem_block.mp hv),
        file_of_mem_violationsOf (hread g hg) (mem_block.mp hw)]
      exact hlt
    rw [Violation.compare, compareLex, hfile]
    rfl

/-- Sorting all violations sorts the files and then the violations of each. -/
theorem sort_violations {order : List (Path × Content)} (hread : ∀ f ∈ fs, Readable f)
    (hapart : fs.Pairwise a.Apart) (hperm : order.Perm fs)
    (hsorted : order.Pairwise fun f g => (a.seen f).compare (a.seen g) = .lt) :
    (fs.flatMap a.violationsOf).mergeSort Violation.before = order.flatMap a.block := by
  have hread' : ∀ f ∈ order, Readable f := fun f hf => hread f (hperm.mem_iff.mp hf)
  have hbefore : Violation.before = fun v w => (v.compare w).isLE := rfl
  rw [hbefore]
  apply mergeSort_eq_of_filter_eq (inOrder_flatMap_block hread' hsorted)
  intro v
  -- Only the file of `v` has violations that are tied with it.
  have hother (l : List (Path × Content)) (hl : ∀ f ∈ l, Readable f) :
      (l.filter fun f => (a.seen f).compare v.location.file == .eq).flatMap
          (fun f => (a.violationsOf f).filter (v.compare · == .eq)) =
        l.flatMap fun f => (a.violationsOf f).filter (v.compare · == .eq) := by
    apply flatMap_filter_of_nil
    intro f hf hne
    apply List.filter_eq_nil_iff.mpr
    intro w hw htied
    have hfile := (Violation.compare_eq_iff.mp (beq_iff_eq.mp htied)).1
    rw [file_of_mem_violationsOf (hl f hf) hw] at hfile
    exact beq_eq_false_iff_ne.mp hne (Path.compare_eq_iff.mpr hfile.symm)
  rw [List.filter_flatMap, List.filter_flatMap]
  calc order.flatMap (fun f => (a.block f).filter (v.compare · == .eq))
      = order.flatMap (fun f => (a.violationsOf f).filter (v.compare · == .eq)) :=
        List.flatMap_congr fun f _ => filter_block f v
    _ = fs.flatMap (fun f => (a.violationsOf f).filter (v.compare · == .eq)) := by
        rw [← hother order hread', ← hother fs hread, filter_seen_perm hapart hperm]

private theorem filter_isIn {order : List (Path × Content)} (hread : ∀ f ∈ order, Readable f)
    (hapart : order.Pairwise a.Apart) (hf : f ∈ order) :
    (order.flatMap a.block).filter (a.isIn f) = a.block f := by
  have hown (g : Path × Content) (hg : g ∈ order) : (a.block g).filter (a.isIn f) =
      if (a.seen g).compare (a.seen f) == .eq then a.block g else [] := by
    have hsame (v : Violation) (hv : v ∈ a.block g) :
        a.isIn f v = ((a.seen g).compare (a.seen f) == .eq) := isIn_of_mem (hread g hg) (mem_block.mp hv)
    rw [List.filter_congr hsame]
    split
    case isTrue h => simp [h]
    case isFalse h => simp [h]
  rw [List.filter_flatMap, List.flatMap_congr hown]
  have hfilter := flatMap_filter_of_nil (l := order)
    (p := fun g => (a.seen g).compare (a.seen f) == .eq)
    (g := fun g => if (a.seen g).compare (a.seen f) == .eq then a.block g else [])
    fun g _ hne => by simp [hne]
  have hself : (a.seen f).compare (a.seen f) = .eq := Std.ReflCmp.compare_self
  rw [← hfilter, filter_seen_eq hapart hf]
  simp [hself]

private theorem exists_order (hapart : fs.Pairwise a.Apart) :
    ∃ order : List (Path × Content), order.Perm fs ∧
      order.Pairwise fun f g => (a.seen f).compare (a.seen g) = .lt := by
  have htrans := transCmp_on Path.compare a.seen
  have hperm := List.mergeSort_perm fs fun f g => ((a.seen f).compare (a.seen g)).isLE
  refine ⟨_, hperm, ?_⟩
  refine ((inOrder_mergeSort fs).and (Apart.of_perm hapart hperm)).imp ?_
  intro f g h
  exact (Ordering.isLE_iff_eq_lt_or_eq_eq.mp h.1).resolve_right h.2

private theorem order_unique {order order' : List (Path × Content)} (hperm : order.Perm order')
    (hsorted : order.Pairwise fun f g => (a.seen f).compare (a.seen g) = .lt)
    (hsorted' : order'.Pairwise fun f g => (a.seen f).compare (a.seen g) = .lt) : order = order' := by
  refine hperm.eq_of_pairwise ?_ hsorted hsorted'
  intro f g _ _ hlt hgt
  rw [@Std.OrientedCmp.eq_swap _ Path.compare _ (a.seen f), hgt] at hlt
  cases hlt

/-- What an analysis that goes on after parse errors makes of the files it finds. -/
structure Reports (a : Analysis) (files : List (Path × Content)) (r : LintResult) : Prop where
  blocks : ∃ order : List (Path × Content), order.Perm files ∧
    order.Pairwise (fun f g => (a.seen f).compare (a.seen g) = .lt) ∧
    r.violations = order.flatMap a.block
  filesChecked : r.filesChecked = files.countP a.parses

private theorem Reports.of_perm {files' : List (Path × Content)} {r : LintResult} (h : a.Reports files r)
    (hperm : files.Perm files') : a.Reports files' r := by
  obtain ⟨order, horder, hsorted, hblocks⟩ := h.blocks
  exact ⟨⟨order, horder.trans hperm, hsorted, hblocks⟩, h.filesChecked.trans (hperm.countP_eq _)⟩

private theorem Reports.filter_isIn {r : LintResult} (h : a.Reports files r) (hread : ∀ f ∈ files, Readable f)
    (hapart : files.Pairwise a.Apart) (hf : f ∈ files) : r.violations.filter (a.isIn f) = a.block f := by
  obtain ⟨order, hperm, _, hblocks⟩ := h.blocks
  rw [hblocks]
  exact Analysis.filter_isIn (fun f hf => hread f (hperm.mem_iff.mp hf)) (Apart.of_perm hapart hperm)
    (hperm.mem_iff.mpr hf)

/-- Files that cannot be parsed leave no trace. -/
private theorem Reports.eq_of_perm {files' : List (Path × Content)} {r r' : LintResult}
    (h : a.Reports files r)
    (h' : a.Reports files' r') (hread : ∀ f ∈ files, Readable f) (hread' : ∀ f ∈ files', Readable f)
    (hparsed : (files.filter a.parses).Perm (files'.filter a.parses)) : r = r' := by
  obtain ⟨order, hperm, hsorted, hblocks⟩ := h.blocks
  obtain ⟨order', hperm', hsorted', hblocks'⟩ := h'.blocks
  have hpermParsed : (order.filter a.parses).Perm (order'.filter a.parses) :=
    (hperm.filter _).trans (hparsed.trans (hperm'.filter _).symm)
  have horder : order.filter a.parses = order'.filter a.parses :=
    order_unique hpermParsed (hsorted.filter _) (hsorted'.filter _)
  have hkept (l : List (Path × Content)) (hl : ∀ f ∈ l, Readable f) :
      (l.filter a.parses).flatMap a.block = l.flatMap a.block :=
    flatMap_filter_of_nil fun f hf hnone => block_eq_nil (hl f hf) hnone
  have hviolations : r.violations = r'.violations := by
    rw [hblocks, hblocks', ← hkept order fun f hf => hread f (hperm.mem_iff.mp hf),
      ← hkept order' fun f hf => hread' f (hperm'.mem_iff.mp hf), horder]
  have hchecked : r.filesChecked = r'.filesChecked := by
    rw [h.filesChecked, h'.filesChecked, List.countP_eq_length_filter, List.countP_eq_length_filter]
    exact hparsed.length_eq
  cases r
  cases r'
  cases hviolations
  cases hchecked
  rfl

private theorem reports_of_run (hfiles : a.files d = .ok fs) (hread : ∀ f ∈ fs, Readable f)
    (hapart : fs.Pairwise a.Apart)
    (h : ∀ f ∈ fs, a.failOnParseError = false ∨ a.parses f = true) :
    ∃ r, a.run d = .ok r ∧ a.Reports fs r := by
  obtain ⟨order, hperm, hsorted⟩ := exists_order hapart
  refine ⟨_, run_eq_ok hfiles hread h, ⟨order, hperm, hsorted, ?_⟩, rfl⟩
  exact sort_violations hread hapart hperm hsorted

/-- An analysis is local to files. Let a walk of the root find files, and let those that are selected be
text and have different relative paths. If the analysis goes on after parse errors, it succeeds: each
file has its violations by line and column, as a block of its own; the blocks come by relative path, and
the files that can be parsed are counted. So on any other disk a file that is found with the same content
has the same violations, and the result is the same if only files differ that cannot be parsed. If parse
errors are failures, the analysis fails with the first file in path order that cannot be parsed, and
gives the same result if there is none. -/
theorem run_file_local (a : Analysis) (d : Disk) {found : List (Path × Content)}
    (hwalk : d.walk ⟨false, a.settings.scope.respectIgnoreFiles⟩ a.root = .ok found)
    (hread : ∀ f ∈ found.filter a.selects, Readable f)
    (hapart : (found.filter a.selects).Pairwise a.Apart) :
    (a.failOnParseError = false → ∃ r, a.run d = .ok r ∧ a.Reports (found.filter a.selects) r ∧
      (∀ f ∈ found.filter a.selects, r.violations.filter (a.isIn f) = a.block f) ∧
      ∀ (d' : Disk) (found' : List (Path × Content)) (r' : LintResult),
        d'.walk ⟨false, a.settings.scope.respectIgnoreFiles⟩ a.root = .ok found' →
        (∀ f ∈ found'.filter a.selects, Readable f) → (found'.filter a.selects).Pairwise a.Apart →
        a.run d' = .ok r' →
        (∀ f ∈ found.filter a.selects, f ∈ found'.filter a.selects →
          r'.violations.filter (a.isIn f) = r.violations.filter (a.isIn f)) ∧
        (((found.filter a.selects).filter a.parses).Perm ((found'.filter a.selects).filter a.parses) →
          r' = r)) ∧
    (a.failOnParseError = true → ∃ fs, a.files d = .ok fs ∧ fs.Perm (found.filter a.selects) ∧
      fs.Pairwise (fun f g => f.1.le g.1 = true) ∧
      ((∀ f ∈ fs, a.parses f = true) → a.run d = { a with failOnParseError := false }.run d) ∧
      ∀ pre f post, fs = pre ++ f :: post → (∀ g ∈ pre, a.parses g = true) → a.parses f = false →
        ∃ source failure, f.2.text? = some source ∧ a.frontend.parse source = .error failure ∧
          a.run d = .error (.parse f.1 failure)) := by
  -- What holds of the files of any disk, once they are put in path order.
  have hsorted {d : Disk} {found : List (Path × Content)}
      (hwalk : d.walk ⟨false, a.settings.scope.respectIgnoreFiles⟩ a.root = .ok found)
      (hread : ∀ f ∈ found.filter a.selects, Readable f)
      (hapart : (found.filter a.selects).Pairwise a.Apart) :
      ∃ fs, a.files d = .ok fs ∧ fs.Perm (found.filter a.selects) ∧
        fs.Pairwise (fun f g => f.1.le g.1 = true) ∧ (∀ f ∈ fs, Readable f) ∧ fs.Pairwise a.Apart := by
    have hperm := List.mergeSort_perm (found.filter a.selects) fun x y => x.1.le y.1
    have htrans := transCmp_on Path.compare (Prod.fst : Path × Content → Path)
    exact ⟨_, files_eq hwalk, hperm, inOrder_mergeSort (found.filter a.selects),
      fun f hf => hread f (hperm.mem_iff.mp hf), Apart.of_perm hapart hperm⟩
  have hreports {d : Disk} {found : List (Path × Content)} (hgoOn : a.failOnParseError = false)
      (hwalk : d.walk ⟨false, a.settings.scope.respectIgnoreFiles⟩ a.root = .ok found)
      (hread : ∀ f ∈ found.filter a.selects, Readable f)
      (hapart : (found.filter a.selects).Pairwise a.Apart) :
      ∃ r, a.run d = .ok r ∧ a.Reports (found.filter a.selects) r := by
    obtain ⟨fs, hfiles, hperm, _, hread, hapart⟩ := hsorted hwalk hread hapart
    obtain ⟨r, hrun, hr⟩ := reports_of_run hfiles hread hapart fun f _ => .inl hgoOn
    exact ⟨r, hrun, hr.of_perm hperm⟩
  constructor
  · intro hgoOn
    obtain ⟨r, hrun, hr⟩ := hreports hgoOn hwalk hread hapart
    refine ⟨r, hrun, hr, fun f hf => hr.filter_isIn hread hapart hf, ?_⟩
    intro d' found' r' hwalk' hread' hapart' hrun'
    obtain ⟨r'', hrun'', hr'⟩ := hreports hgoOn hwalk' hread' hapart'
    obtain rfl : r'' = r' := Except.ok.inj (hrun''.symm.trans hrun')
    refine ⟨fun f hf hf' => ?_, fun hparsed => ?_⟩
    · rw [hr.filter_isIn hread hapart hf, hr'.filter_isIn hread' hapart' hf']
    · exact hr'.eq_of_perm hr hread' hread hparsed.symm
  · intro hstop
    obtain ⟨fs, hfiles, hperm, hinOrder, hread, _⟩ := hsorted hwalk hread hapart
    refine ⟨fs, hfiles, hperm, hinOrder, fun hall => ?_, ?_⟩
    · rw [run_eq_ok hfiles hread fun f hf => .inr (hall f hf)]
      exact (run_eq_ok (a := { a with failOnParseError := false }) hfiles hread fun f _ => .inl rfl).symm
    · rintro pre f post rfl hpre hnone
      have hpreRead : ∀ g ∈ pre, Readable g := fun g hg => hread g (List.mem_append_left _ hg)
      rcases violationsOf_cases (a := a) (hread f (by simp)) with
        ⟨source, failure, hsource, hparse, -⟩ | ⟨_, _, _, hok, _⟩
      · exact ⟨source, failure, hsource, hparse, run_eq_error hfiles hpreRead hpre hstop hsource hparse⟩
      · rw [hnone] at hok
        cases hok

/-- Two files with the same text in different directories, and one that cannot be parsed. -/
def threeFiles : List (Path × Content) :=
  [(⟨"/app/B.kt"⟩, .text jobInGlobalScope), (⟨"/app/C.kt"⟩, .text "fun"),
    (⟨"/app/a/A.kt"⟩, .text jobInGlobalScope)]

def threeFilesDisk : Disk where
  tree := .dir [("app", .dir [("B.kt", .file (.text jobInGlobalScope)), ("C.kt", .file (.text "fun")),
    ("a", .dir [("A.kt", .file (.text jobInGlobalScope)), ("notes.txt", .file (.binary [255]))])])]
  directory := []

def oneText : Analysis :=
  { bothRules with frontend := Kotlin.frontend fun source =>
      if source == jobInGlobalScope then some jobInGlobalScopeRows else none }

theorem run_file_local_threeFiles :
    (∀ f ∈ threeFiles, Readable f) ∧ threeFiles.Pairwise oneText.Apart ∧
    (∃ r, oneText.run threeFilesDisk = .ok r ∧ oneText.Reports threeFiles r ∧ r.filesChecked = 2 ∧
      ∀ f ∈ threeFiles, r.violations.filter (oneText.isIn f) = oneText.block f) ∧
    { oneText with failOnParseError := true }.run threeFilesDisk =
      .error (.parse ⟨"/app/C.kt"⟩ .noTree) := by
  have hread : ∀ f ∈ threeFiles, Readable f := by decide +kernel
  have hapart : threeFiles.Pairwise oneText.Apart := by decide +kernel
  obtain ⟨found, hwalk, hfound⟩ : ∃ found, threeFilesDisk.walk ⟨false, true⟩ ⟨"/app"⟩ = .ok found ∧
      found.filter oneText.selects = threeFiles := ⟨_, rfl, by decide +kernel⟩
  refine ⟨hread, hapart, ?_, ?_⟩
  · have hlocal := (run_file_local oneText threeFilesDisk hwalk (hfound ▸ hread) (hfound ▸ hapart)).1 rfl
    rw [hfound] at hlocal
    obtain ⟨r, hrun, hr, hblocks, -⟩ := hlocal
    have hcount : threeFiles.countP oneText.parses = 2 := by decide +kernel
    exact ⟨r, hrun, hr, hr.filesChecked.trans hcount, hblocks⟩
  · have hlocal := (run_file_local { oneText with failOnParseError := true } threeFilesDisk hwalk
      (hfound ▸ hread) (hfound ▸ hapart)).2 rfl
    obtain ⟨fs, hfiles, -, -, -, hfails⟩ := hlocal
    have hfs : fs = threeFiles := by
      have hsorted : threeFiles.Pairwise fun f g => f.1.le g.1 = true := by decide +kernel
      rw [files_eq (a := { oneText with failOnParseError := true }) hwalk] at hfiles
      rw [← Except.ok.inj hfiles, ← List.mergeSort_of_pairwise hsorted, ← hfound]
      rfl
    obtain ⟨source, failure, hsource, hparse, hrun⟩ := hfails [(⟨"/app/B.kt"⟩, .text jobInGlobalScope)]
      (⟨"/app/C.kt"⟩, .text "fun") [(⟨"/app/a/A.kt"⟩, .text jobInGlobalScope)] hfs (by decide +kernel)
      (by decide +kernel)
    have hfailure : failure = .noTree := by
      obtain rfl := Option.some.inj hsource
      exact (Except.error.inj hparse).symm
    rw [hrun, hfailure]

end Analysis
end CoroutineCheck

import CoroutineCheck.FileTree.Walk
import CoroutineCheck.Proofs.FileTree.Places
import CoroutineCheck.Proofs.Text.Search
/-!
# Walks

A walk depends on the place of its target, and on how the target is written only in that the paths found
start that way: ignore files see the names that lead from their directories to an entry.
-/
namespace CoroutineCheck

namespace FileTree

mutual

/-- Whether the entries of all directories have proper names, no two of one directory the same. -/
def isProper : FileTree → Bool
  | file _ => true
  | dir es => areProper es

def areProper : List (String × FileTree) → Bool
  | [] => true
  | (name, t) :: rest =>
    Path.isName name && (rest.lookup name).isNone && t.isProper && areProper rest

end

section Proper

variable {t : FileTree} {es : List (String × FileTree)} {names : List String}

private theorem entries_induction {motive : FileTree → Prop} (hfile : ∀ c, motive (file c))
    (hdir : ∀ es, (∀ e ∈ es, motive e.2) → motive (dir es)) (t : FileTree) : motive t := by
  induction hk : sizeOf t using Nat.strongRecOn generalizing t with
  | ind k ih =>
    subst hk
    cases t with
    | file c => exact hfile c
    | dir es =>
      refine hdir es fun e he => ih (sizeOf e.2) ?_ e.2 rfl
      have hmem := List.sizeOf_lt_of_mem he
      have hpair : sizeOf e = 1 + sizeOf e.1 + sizeOf e.2 := rfl
      rw [dir.sizeOf_spec]
      omega

private theorem areProper_iff : areProper es = true ↔
    es.Pairwise (fun e f => e.1 ≠ f.1) ∧ ∀ e ∈ es, Path.isName e.1 = true ∧ e.2.isProper = true := by
  induction es with
  | nil => simp [areProper]
  | cons e es ih =>
    obtain ⟨name, t⟩ := e
    rw [areProper, List.pairwise_cons, List.forall_mem_cons]
    simp only [Bool.and_eq_true, ih, Option.isNone_iff_eq_none, List.lookup_eq_none_iff,
      bne_iff_ne, ne_eq]
    grind

private theorem lookup_of_mem {e : String × FileTree} (h : (dir es).isProper = true) (he : e ∈ es) :
    es.lookup e.1 = some e.2 := by
  rw [isProper, areProper_iff] at h
  have hapart := h.1
  clear h
  induction es with
  | nil => cases he
  | cons f es ih =>
    rw [List.pairwise_cons] at hapart
    rcases List.mem_cons.mp he with rfl | hmem
    · exact List.lookup_cons_self
    · rw [List.lookup_cons, beq_false_of_ne (hapart.1 e hmem).symm]
      exact ih hmem hapart.2

/-- The way to a place in a proper tree is made of names, and ends in a proper tree. -/
theorem isProper_at? {u : FileTree} (h : t.isProper = true) (hat : at? names t = some u) :
    (∀ n ∈ names, Path.isName n = true) ∧ u.isProper = true := by
  induction names generalizing t with
  | nil => simp_all
  | cons n names ih =>
    rw [at?_cons, Option.bind_eq_some_iff] at hat
    obtain ⟨v, hv, hat⟩ := hat
    cases t with
    | file c => simp [entries] at hv
    | dir es =>
      rw [isProper, areProper_iff] at h
      obtain ⟨front, back, rfl, _⟩ := List.lookup_eq_some_iff.mp hv
      obtain ⟨hn, hv⟩ := h.2 (n, v) (by simp)
      obtain ⟨hnames, hu⟩ := ih hv hat
      exact ⟨List.forall_mem_cons.mpr ⟨hn, hnames⟩, hu⟩

end Proper
end FileTree

namespace Walk

section Spelling

variable {p : Path} {names : List String}

private theorem behind_down (h : ∀ n ∈ names, Path.isName n = true) (hne : names ≠ []) :
    behind p.text.toList (p.down names).text.toList = (Path.ofNames names).text.toList := by
  have hstart : Text.after? ['/'] (Path.ofNames names).text.toList = none := by
    rw [Option.eq_none_iff_forall_ne_some]
    intro rest hrest
    have habs := Path.isAbsolute_ofNames h
    rw [Path.isAbsolute, Text.after?_eq_some_iff.mp hrest] at habs
    cases habs
  have hafter (lead rest : List Char) : Text.after? lead (lead ++ rest) = some rest :=
    Text.after?_eq_some_iff.mpr rfl
  rw [Path.toList_down h hne]
  unfold behind
  rcases p.stem_eq with hstem | hstem
  · rw [hstem, hafter]
    dsimp only
    rw [hstart]
    rfl
  · rw [hstem, List.append_assoc, hafter]
    rfl

private theorem bare_of_front (h : p.front.head? ≠ some ['.']) : bare p.text.toList = p.text.toList := by
  unfold bare
  cases hafter : Text.after? ['.', '/'] p.text.toList with
  | none => rfl
  | some rest =>
    have htext : p.text.toList = ['.', '/'] ++ rest := Text.after?_eq_some_iff.mp hafter
    have hpieces : Text.pieces '/' p.text.toList = ['.'] :: Text.pieces '/' rest := by
      rw [htext]
      exact Text.pieces_append_sep ['.'] rest
    have hne : p.front ≠ [] := Path.front_ne_nil (by simp [htext])
    obtain ⟨piece, more, hfront⟩ := List.exists_cons_of_ne_nil hne
    have hpiece : piece = ['.'] := by
      rcases Path.pieces_eq_front p with ⟨_, hp⟩ | hp
      · rw [hfront, hpieces] at hp
        exact (List.cons.inj hp).1.symm
      · rw [hfront, hpieces] at hp
        exact (List.cons.inj hp).1.symm
    rw [hfront, hpiece] at h
    exact absurd rfl h

private theorem isHere_of_front (h : p.front.head? ≠ some ['.']) : p.isHere = false := by
  rw [Path.isHere, beq_eq_false_iff_ne, Path.components_eq]
  intro hhere
  unfold Path.lead at hhere
  rw [if_neg h] at hhere
  split at hhere
  · cases hhere
  · have hmem : Path.Component.here ∈ Path.spoken p.front := by
      rw [List.nil_append] at hhere
      simp [hhere]
    obtain ⟨s, _, hs⟩ := List.mem_map.mp hmem
    unfold Path.Component.ofSegment at hs
    split at hs <;> cases hs

def Level.moved (l : Level) (p : Path) : Level := { l with directory := p }

@[simp] private theorem Level.moved_directory (l : Level) (p : Path) : (l.moved p).directory = p := rfl

/-- How ignore files see the entries below a target: by the names that lead there. -/
structure SeenByName (p : Path) : Prop where
  sees : ∀ (l : Level) (above below : List String), (∀ n ∈ above, Path.isName n = true) →
    (∀ n ∈ below, Path.isName n = true) → below ≠ [] →
    (l.moved (p.down above)).sees (bare (p.down (above ++ below)).text.toList) =
      (Path.ofNames below).text.toList
  full : ∀ (base : Path) (inner outer : List Level) (below : List String),
    (∀ n ∈ below, Path.isName n = true) → below ≠ [] →
    Surroundings.full ⟨p, base, inner, outer⟩ (bare (p.down below).text.toList) =
      (base.join (Path.ofNames below)).text.toList

private theorem sees_down (l : Level) (hdir : bare l.directory.text.toList = p.text.toList)
    (hfront : p.front.head? ≠ some ['.']) (htext : p.text.toList ≠ [])
    (h : ∀ n ∈ names, Path.isName n = true) (hne : names ≠ []) :
    l.sees (p.down names).text.toList = (Path.ofNames names).text.toList := by
  have hfront' : (p.down names).front.head? ≠ some ['.'] := by
    rwa [Path.head?_front_down h htext]
  have hslash : (p.down names).text.toList.contains '/' = true := by
    rw [Path.toList_down h hne, List.contains_iff_mem]
    exact List.mem_append_left _ (Path.slash_mem_stem htext)
  unfold Level.sees
  rw [hdir, bare_of_front hfront']
  dsimp only
  rw [String.ofList_toList, isHere_of_front hfront, hslash]
  exact behind_down h hne

theorem SeenByName.of_front (hfront : p.front.head? ≠ some ['.']) (htext : p.text.toList ≠ []) :
    SeenByName p where
  sees l above below habove hbelow hne := by
    have hfront' : (p.down above).front.head? ≠ some ['.'] := by
      rwa [Path.head?_front_down habove htext]
    have htext' := Path.toList_down_ne_nil habove (.inl htext)
    have hfront'' : ((p.down above).down below).front.head? ≠ some ['.'] := by
      rwa [Path.head?_front_down hbelow htext']
    rw [Path.down_append, bare_of_front hfront'']
    exact sees_down _ (bare_of_front hfront') hfront' htext' hbelow hne
  full base inner outer below hbelow hne := by
    have hfront' : (p.down below).front.head? ≠ some ['.'] := by
      rwa [Path.head?_front_down hbelow htext]
    unfold Surroundings.full
    simp only [isHere_of_front hfront, bare_of_front hfront, bare_of_front hfront']
    rw [if_neg (by simp), behind_down hbelow hne, String.ofList_toList]

private theorem bare_dot (h : ∀ n ∈ names, Path.isName n = true) (hne : names ≠ []) :
    bare (Path.down ⟨"."⟩ names).text.toList = (Path.ofNames names).text.toList := by
  unfold bare
  rw [Path.toList_down h hne, show Path.stem ⟨"."⟩ = ['.', '/'] from rfl,
    Text.after?_eq_some_iff.mpr rfl]
  rfl

theorem head?_front_ofNames (h : ∀ n ∈ names, Path.isName n = true) (hne : names ≠ []) :
    (Path.ofNames names).front.head? ≠ some ['.'] := by
  rw [← Path.down_empty h hne, Path.front_down h, show Path.front ⟨""⟩ = [] from rfl]
  cases names with
  | nil => exact absurd rfl hne
  | cons n names => simpa using Path.toList_ne_dot_of_isName (h n (by simp))

private theorem ofNames_append {above below : List String}
    (habove : ∀ n ∈ above, Path.isName n = true) (hbelow : ∀ n ∈ below, Path.isName n = true)
    (hne : above ≠ []) : Path.ofNames (above ++ below) = (Path.ofNames above).down below := by
  have hall : ∀ n ∈ above ++ below, Path.isName n = true :=
    List.forall_mem_append.mpr ⟨habove, hbelow⟩
  rw [← Path.down_empty hall (by simp [hne]), Path.down_append, Path.down_empty habove hne]

theorem SeenByName.dot (h : ∀ n ∈ names, Path.isName n = true) :
    SeenByName (Path.down ⟨"."⟩ names) where
  sees l above below habove hbelow hne := by
    have hnames : ∀ n ∈ names ++ above, Path.isName n = true :=
      List.forall_mem_append.mpr ⟨h, habove⟩
    have hall : ∀ n ∈ names ++ above ++ below, Path.isName n = true :=
      List.forall_mem_append.mpr ⟨hnames, hbelow⟩
    rw [← Path.down_append, ← Path.down_append, ← List.append_assoc, bare_dot hall (by simp [hne])]
    by_cases htop : names ++ above = []
    · -- In `.` itself, a level sees entries as they are.
      have hhere : Path.isHere ⟨String.ofList (bare (Path.down ⟨"."⟩ []).text.toList)⟩ = true := by
        decide
      rw [htop, List.nil_append]
      unfold Level.sees
      dsimp only
      rw [Level.moved_directory, hhere, bare_of_front (head?_front_ofNames hbelow hne), Bool.true_or,
        if_pos rfl]
    · rw [ofNames_append hnames hbelow htop]
      exact sees_down _ (bare_dot hnames htop) (head?_front_ofNames hnames htop)
        (Path.toList_ofNames_ne_nil hnames htop) hbelow hne
  full base inner outer below hbelow hne := by
    have hall : ∀ n ∈ names ++ below, Path.isName n = true :=
      List.forall_mem_append.mpr ⟨h, hbelow⟩
    rw [← Path.down_append, bare_dot hall (by simp [hne])]
    unfold Surroundings.full
    by_cases htop : names = []
    · subst htop
      have hhere : (Path.down ⟨"."⟩ []).isHere = true := by decide
      simp only [hhere, if_true, List.nil_append, String.ofList_toList]
    · have hhere : (Path.down ⟨"."⟩ names).isHere = false := by
        rw [Path.isHere, Path.components_down h, beq_eq_false_iff_ne]
        intro heq
        have hlength := congrArg List.length heq
        simp [show (Path.components ⟨"."⟩).length = 1 from rfl, htop] at hlength
      simp only [hhere, bare_dot h htop]
      rw [if_neg (by simp), ofNames_append h hbelow htop, behind_down hbelow hne, String.ofList_toList]

end Spelling

section Names

variable {d : Disk} {o : WalkOptions} {p : Path} {here : List String} {name : String}

/-- What surrounds an entry below a target, by names: the levels from its directory up to the target, each
with the names that lead there from the target, and the levels above the target. -/
structure Around where
  base : Path
  inner : List (List String × Level)
  outer : List Level

namespace Around

def levels (a : Around) (entry : List String) : List (Level × List Char) :=
  a.inner.map (fun l => (l.2, (Path.ofNames (entry.drop l.1.length)).text.toList)) ++
    a.outer.map fun l => (l, l.sees (a.base.join (Path.ofNames entry)).text.toList)

def skips (o : WalkOptions) (a : Around) (entry : List String) (name : String) (isDir : Bool) : Bool :=
  ((verdict? (a.levels entry) isDir).map (· == .ignored)).getD (o.skipHidden && isHidden name)

def enter (here : List String) (l : Level) (a : Around) : Around :=
  { a with inner := (here, l) :: a.inner }

def placed (a : Around) (p : Path) : Surroundings :=
  ⟨p, a.base, a.inner.map fun l => l.2.moved (p.down l.1), a.outer⟩

end Around

mutual

/-- The files below a place, by the names that lead there. -/
def namesBelow (d : Disk) (o : WalkOptions) (a : Around) (here : List String) :
    FileTree → List (List String × Content)
  | .file c => [(here, c)]
  | .dir es => namesAmong d o (a.enter here (.ofEntries d o ⟨""⟩ es)) here es

def namesAmong (d : Disk) (o : WalkOptions) (a : Around) (here : List String) :
    List (String × FileTree) → List (List String × Content)
  | [] => []
  | (name, t) :: rest =>
    (if a.skips o (here ++ [name]) name t.isDir then [] else namesBelow d o a (here ++ [name]) t) ++
      namesAmong d o a here rest

end

private theorem filesAmong_eq (s : Surroundings) (here : Path) (es : List (String × FileTree)) :
    filesAmong d o s here es = es.flatMap fun e =>
      if skips o s (here.join ⟨e.1⟩) e.1 e.2.isDir then []
      else filesBelow d o s (here.join ⟨e.1⟩) e.2 := by
  induction es with
  | nil => rfl
  | cons e es ih => rw [filesAmong, ih, List.flatMap_cons]

private theorem namesAmong_eq (a : Around) (here : List String) (es : List (String × FileTree)) :
    namesAmong d o a here es = es.flatMap fun e =>
      if a.skips o (here ++ [e.1]) e.1 e.2.isDir then [] else namesBelow d o a (here ++ [e.1]) e.2 := by
  induction es with
  | nil => rfl
  | cons e es ih => rw [namesAmong, ih, List.flatMap_cons]

section Verdict

private def unplaced (l : Level × List Char) : Level × List Char := (l.1.moved ⟨""⟩, l.2)

private theorem insideRepository_unplaced (levels : List (Level × List Char)) :
    insideRepository (levels.map unplaced) = (insideRepository levels).map unplaced := by
  induction levels with
  | nil => rfl
  | cons l levels ih =>
    rw [List.map_cons, insideRepository, insideRepository, ih,
      show (unplaced l).1.isRepository = l.1.isRepository from rfl]
    split
    · rfl
    · cases insideRepository levels <;> rfl

/-- A verdict does not depend on where directories are, once it is known what is asked of them. -/
private theorem verdict?_unplaced (levels : List (Level × List Char)) (isDir : Bool) :
    verdict? (levels.map unplaced) isDir = verdict? levels isDir := by
  unfold verdict?
  simp only [insideRepository_unplaced, List.findSome?_map]
  rfl

private theorem skips_placed {a : Around} (hp : SeenByName p) (hinner : ∀ l ∈ a.inner, l.1 <+: here)
    (h : ∀ n ∈ here ++ [name], Path.isName n = true) (isDir : Bool) :
    skips o (a.placed p) (p.down (here ++ [name])) name isDir =
      a.skips o (here ++ [name]) name isDir := by
  have hsees : ∀ l ∈ a.inner,
      (l.2.moved (p.down l.1)).sees (bare (p.down (here ++ [name])).text.toList) =
        (Path.ofNames ((here ++ [name]).drop l.1.length)).text.toList := by
    intro l hl
    obtain ⟨rest, hrest⟩ := hinner l hl
    rw [← hrest, List.append_assoc] at h ⊢
    rw [List.forall_mem_append] at h
    rw [List.drop_left]
    exact hp.sees l.2 l.1 _ h.1 h.2 (by simp)
  have hlevels : ((a.placed p).levels (p.down (here ++ [name]))).map unplaced =
      (a.levels (here ++ [name])).map unplaced := by
    have hinner' : (a.placed p).inner.map (fun l =>
        unplaced (l, l.sees (bare (p.down (here ++ [name])).text.toList))) =
          a.inner.map fun l =>
            unplaced (l.2, (Path.ofNames ((here ++ [name]).drop l.1.length)).text.toList) := by
      rw [Around.placed, List.map_map]
      apply List.map_congr_left
      intro l hl
      rw [Function.comp_apply, hsees l hl]
      rfl
    rw [Surroundings.levels, Around.levels, List.map_append, List.map_append, List.map_map,
      List.map_map, List.map_map, List.map_map]
    refine congrArg₂ _ hinner' (List.map_congr_left fun l _ => ?_)
    rw [Function.comp_apply, Function.comp_apply, Around.placed, hp.full _ _ _ _ h (by simp)]
  have hverdict : verdict? ((a.placed p).levels (p.down (here ++ [name]))) isDir =
      verdict? (a.levels (here ++ [name])) isDir := by
    rw [← verdict?_unplaced, hlevels, verdict?_unplaced]
  unfold skips Around.skips
  rw [hverdict]
  cases verdict? (a.levels (here ++ [name])) isDir with
  | none => rfl
  | some v => cases v <;> rfl

end Verdict

/-- A walk from a target as it is written finds what the walk by names finds. -/
theorem filesBelow_eq {a : Around} {t : FileTree} (hp : SeenByName p) (ht : t.isProper = true)
    (hhere : ∀ n ∈ here, Path.isName n = true) (hinner : ∀ l ∈ a.inner, l.1 <+: here) :
    filesBelow d o (a.placed p) (p.down here) t =
      (namesBelow d o a here t).map fun f => (p.down f.1, f.2) := by
  induction t using FileTree.entries_induction generalizing a here with
  | hfile c => rfl
  | hdir es ih =>
    have hes := (FileTree.areProper_iff.mp ht).2
    let b := a.enter here (.ofEntries d o ⟨""⟩ es)
    have hb : ∀ l ∈ b.inner, l.1 <+: here := List.forall_mem_cons.mpr ⟨List.prefix_rfl, hinner⟩
    change filesAmong d o (b.placed p) (p.down here) es =
      (namesAmong d o b here es).map fun f => (p.down f.1, f.2)
    rw [filesAmong_eq, namesAmong_eq, List.map_flatMap]
    apply List.flatMap_congr
    intro e he
    obtain ⟨hname, hproper⟩ := hes e he
    have hnames : ∀ n ∈ here ++ [e.1], Path.isName n = true :=
      List.forall_mem_append.mpr ⟨hhere, by simpa using hname⟩
    rw [← Path.down_concat, skips_placed hp hb hnames]
    split
    · rfl
    · exact ih e he hproper hnames fun l hl => (hb l hl).trans (List.prefix_append ..)

private theorem at?_of_mem_namesBelow {a : Around} {t : FileTree} {f : List String × Content}
    (ht : t.isProper = true) (hf : f ∈ namesBelow d o a here t) :
    ∃ below, f.1 = here ++ below ∧ FileTree.at? below t = some (.file f.2) := by
  induction t using FileTree.entries_induction generalizing a here with
  | hfile c =>
    rw [namesBelow, List.mem_singleton] at hf
    exact ⟨[], by rw [hf, List.append_nil], by rw [hf]; rfl⟩
  | hdir es ih =>
    rw [namesBelow, namesAmong_eq, List.mem_flatMap] at hf
    obtain ⟨e, he, hf⟩ := hf
    split at hf
    case isTrue => cases hf
    case isFalse =>
      obtain ⟨below, hbelow, hat⟩ := ih e he ((FileTree.areProper_iff.mp ht).2 e he).2 hf
      refine ⟨e.1 :: below, by rw [hbelow, List.append_assoc]; rfl, ?_⟩
      rw [FileTree.at?_cons, FileTree.entries, FileTree.lookup_of_mem ht he]
      exact hat

end Names
end Walk

namespace Disk

variable {d : Disk} {o : WalkOptions} {p : Path} {place : List String}

def filesAt (d : Disk) (o : WalkOptions) (place : List String) :
    Except WalkError (List (List String × Content)) :=
  match FileTree.at? place d.tree with
  | none => .error .missing
  | some (.file c) => .ok [([], c)]
  | some (.dir es) =>
    let outer := Walk.levelsAbove d o place
    if outer.all Walk.Level.isReadable then
      .ok (Walk.namesBelow d o ⟨Walk.pathTo place, [], outer⟩ [] (.dir es))
    else .error .unreadable

/-- A walk finds the files at the place that its target leads to. Their paths start as the target is
written. -/
theorem walk_eq (hproper : d.tree.isProper = true) (hp : Walk.SeenByName p) (hdash : p.text ≠ "-")
    (hplace : d.locate? p = some place) :
    d.walk o p = (d.filesAt o place).map fun fs => fs.map fun f => (p.down f.1, f.2) := by
  rw [walk, if_neg (by simpa using hdash), hplace, filesAt]
  dsimp only
  cases hat : FileTree.at? place d.tree with
  | none => rfl
  | some t =>
    cases t with
    | file c => rfl
    | dir es =>
      have hes := (FileTree.isProper_at? hproper hat).2
      dsimp only
      split
      · have hnone : ∀ n ∈ ([] : List String), Path.isName n = true := by simp
        have hfiles := Walk.filesBelow_eq (d := d) (o := o)
          (a := ⟨Walk.pathTo place, [], Walk.levelsAbove d o place⟩) hp hes hnone (by simp)
        exact congrArg Except.ok hfiles
      · rfl

theorem at?_of_mem_filesAt (hproper : d.tree.isProper = true) {fs : List (List String × Content)}
    (hfs : d.filesAt o place = .ok fs) {f : List String × Content} (hf : f ∈ fs) :
    FileTree.at? (place ++ f.1) d.tree = some (.file f.2) := by
  unfold filesAt at hfs
  rw [FileTree.at?_append]
  cases hat : FileTree.at? place d.tree with
  | none => simp [hat] at hfs
  | some t =>
    rw [hat] at hfs
    cases t with
    | file c =>
      cases hfs
      rw [List.mem_singleton.mp hf]
      rfl
    | dir es =>
      have hes := (FileTree.isProper_at? hproper hat).2
      dsimp only at hfs
      split at hfs
      · cases hfs
        obtain ⟨below, hbelow, hfile⟩ := Walk.at?_of_mem_namesBelow hes hf
        rw [hbelow]
        exact hfile
      · cases hfs

end Disk
end CoroutineCheck

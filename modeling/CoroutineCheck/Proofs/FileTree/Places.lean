import CoroutineCheck.FileTree.Basic
import CoroutineCheck.Proofs.Path.Lineage
/-!
# Places in a file tree

A place is the list of names that leads to it. Writing a file at a place where there is one changes what
stands there and nothing else: every other file keeps its content, every directory stays one, and so
every path leads where it led before.
-/
namespace CoroutineCheck

namespace FileTree

variable {t u : FileTree} {names here : List String} {c old : Content}

@[simp] theorem at?_nil (t : FileTree) : at? [] t = some t := rfl

theorem at?_cons (name : String) (rest : List String) (t : FileTree) :
    at? (name :: rest) t = (t.entries.lookup name).bind (at? rest) := rfl

theorem at?_append (xs ys : List String) (t : FileTree) :
    at? (xs ++ ys) t = (at? xs t).bind (at? ys) := by
  induction xs generalizing t with
  | nil => rfl
  | cons x xs ih =>
    rw [List.cons_append, at?_cons, at?_cons, Option.bind_assoc]
    exact congrArg _ (funext ih)

/-- What there is at a place: a directory, a file, or nothing. -/
def kindAt (names : List String) (t : FileTree) : Option Bool := (at? names t).map isDir

def contentAt (names : List String) (t : FileTree) : Option Content := (at? names t).bind content?

theorem kindAt_of_append {below : List String} (hat : (at? (names ++ below) t).isSome = true)
    (hne : below ≠ []) : kindAt names t = some true := by
  rw [at?_append] at hat
  unfold kindAt
  cases hu : at? names t with
  | none => simp [hu] at hat
  | some u =>
    cases u with
    | dir es => rfl
    | file c =>
      cases below with
      | nil => exact absurd rfl hne
      | cons n below => simp [hu, at?_cons, entries] at hat

section Write

private theorem lookup_map (name other : String) (t : FileTree) (es : List (String × FileTree)) :
    (es.map fun e => if e.1 == name then (name, t) else e).lookup other =
      if other = name then (es.lookup name).map fun _ => t else es.lookup other := by
  induction es with
  | nil => simp
  | cons e es ih =>
    rw [List.map_cons, List.lookup_cons, List.lookup_cons, List.lookup_cons, ih]
    by_cases hkey : e.1 = name
    · by_cases hother : other = name
      · simp [hkey, hother]
      · simp [hkey, beq_false_of_ne hother, hother]
    · by_cases hother : other = name
      · simp [hkey, hother, beq_false_of_ne (Ne.symm hkey)]
      · simp [hkey, hother]

private theorem lookup_set (name other : String) (t : FileTree) (es : List (String × FileTree)) :
    (set name t es).lookup other = if other = name then some t else es.lookup other := by
  unfold set
  split
  case isTrue hsome =>
    rw [lookup_map]
    obtain ⟨u, hu⟩ := Option.isSome_iff_exists.mp hsome
    simp [hu]
  case isFalse hnone =>
    rw [Option.not_isSome_iff_eq_none] at hnone
    rw [List.lookup_append]
    by_cases hother : other = name
    · simp [hother, hnone]
    · simp [hother, List.lookup_cons, beq_false_of_ne hother]

private theorem write_cons {es : List (String × FileTree)} (name : String) (rest : List String)
    (hu : es.lookup name = some u) :
    write (name :: rest) c (dir es) = dir (set name (write rest c u) es) := by
  unfold write
  rw [update]
  simp [entries, hu]

private theorem contentAt_cons {name : String} {rest : List String}
    (h : contentAt (name :: rest) t = some c) :
    ∃ es u, t = dir es ∧ es.lookup name = some u ∧ contentAt rest u = some c := by
  cases t with
  | file _ => simp [contentAt, at?_cons, entries] at h
  | dir es =>
    rw [contentAt, at?_cons, entries] at h
    cases hu : es.lookup name with
    | none => simp [hu] at h
    | some u =>
      rw [hu] at h
      exact ⟨es, u, rfl, hu, h⟩

private theorem contentAt_write_self (h : contentAt names t = some old) :
    contentAt names (write names c t) = some c := by
  induction names generalizing t with
  | nil => rfl
  | cons name rest ih =>
    obtain ⟨es, u, rfl, hu, hrest⟩ := contentAt_cons h
    rw [write_cons name rest hu, contentAt, at?_cons, entries, lookup_set, if_pos rfl]
    exact ih hrest

private theorem contentAt_write_of_ne {other : List String} (h : contentAt names t = some old)
    (hne : other ≠ names) : contentAt other (write names c t) = contentAt other t := by
  induction names generalizing t other with
  | nil =>
    cases other with
    | nil => exact absurd rfl hne
    | cons o other =>
      cases t with
      | file _ => rfl
      | dir _ => simp [contentAt, content?] at h
  | cons name rest ih =>
    obtain ⟨es, u, rfl, hu, hrest⟩ := contentAt_cons h
    rw [write_cons name rest hu]
    cases other with
    | nil => rfl
    | cons o other =>
      rw [contentAt, contentAt, at?_cons, at?_cons, entries, entries, lookup_set]
      by_cases ho : o = name
      · subst ho
        rw [if_pos rfl, hu]
        exact ih hrest fun heq => hne (by rw [heq])
      · rw [if_neg ho]

private theorem kindAt_write (h : contentAt names t = some old) (other : List String) :
    kindAt other (write names c t) = kindAt other t := by
  induction names generalizing t other with
  | nil =>
    cases t with
    | dir _ => simp [contentAt, content?] at h
    | file _ =>
      cases other with
      | nil => rfl
      | cons o other => rfl
  | cons name rest ih =>
    obtain ⟨es, u, rfl, hu, hrest⟩ := contentAt_cons h
    rw [write_cons name rest hu]
    cases other with
    | nil => rfl
    | cons o other =>
      rw [kindAt, kindAt, at?_cons, at?_cons, entries, entries, lookup_set]
      by_cases ho : o = name
      · subst ho
        rw [if_pos rfl, hu]
        exact ih hrest other
      · rw [if_neg ho]

end Write

section Follow

theorem follow_cons (t : FileTree) (here : List String) (s : List Char) (rest : List (List Char)) :
    follow t here (s :: rest) =
      if kindAt here t = some true then
        if Path.silent s then follow t here rest
        else if s == ['.', '.'] then follow t here.dropLast rest
        else if (kindAt (here ++ [String.ofList s]) t).isSome then
          follow t (here ++ [String.ofList s]) rest
        else none
      else none := by
  rw [follow]
  cases hat : at? here t with
  | none => simp [kindAt, hat]
  | some u =>
    cases u with
    | file c => simp [kindAt, hat, isDir]
    | dir es =>
      have hkind : kindAt here t = some true := by simp [kindAt, hat, isDir]
      have hnext : (kindAt (here ++ [String.ofList s]) t).isSome =
          (es.lookup (String.ofList s)).isSome := by
        rw [kindAt, at?_append, hat, Option.isSome_map]
        change ((es.lookup (String.ofList s)).bind some).isSome = _
        rw [Option.bind_fun_some]
      rw [if_pos hkind, hnext]

private theorem follow_congr (h : ∀ names, kindAt names t = kindAt names u) (here : List String)
    (segments : List (List Char)) : follow t here segments = follow u here segments := by
  induction segments generalizing here with
  | nil => rfl
  | cons s rest ih => simp only [follow_cons, h, ih]

theorem follow_append (t : FileTree) (here : List String) (xs ys : List (List Char)) :
    follow t here (xs ++ ys) = (follow t here xs).bind fun there => follow t there ys := by
  induction xs generalizing here with
  | nil => rfl
  | cons s xs ih =>
    rw [List.cons_append, follow_cons, follow_cons]
    repeat' split
    all_goals first | exact ih _ | rfl

theorem follow_names (hnames : ∀ n ∈ names, Path.isName n = true) (hhere : (at? here t).isSome = true) :
    follow t here (names.map String.toList) =
      if (at? (here ++ names) t).isSome then some (here ++ names) else none := by
  induction names generalizing here with
  | nil => simp [follow, hhere]
  | cons n names ih =>
    obtain ⟨hn, hrest⟩ := List.forall_mem_cons.mp hnames
    have hdots : (n.toList == ['.', '.']) = false := by simp_all [Path.isName]
    have hsplit : here ++ n :: names = here ++ [n] ++ names := by simp
    rw [List.map_cons, follow_cons, Path.not_silent_of_isName hn, hdots, String.ofList_toList, hsplit]
    simp only [Bool.false_eq_true, if_false]
    by_cases hnext : (at? (here ++ [n]) t).isSome = true
    · have hdir : kindAt here t = some true := by
        cases hat : at? here t with
        | none => simp [hat] at hhere
        | some u =>
          cases u with
          | dir es => simp [kindAt, hat, isDir]
          | file c => simp [at?_append, hat, at?_cons, entries] at hnext
      rw [if_pos hdir, if_pos (by simpa [kindAt] using hnext), ih hrest hnext]
    · have hnone : at? (here ++ [n] ++ names) t = none := by
        rw [at?_append, Option.not_isSome_iff_eq_none.mp hnext]
        rfl
      rw [hnone, if_neg (c := (kindAt (here ++ [n]) t).isSome = true) (by simpa [kindAt] using hnext)]
      simp

/-- Segments that stand for no component lead nowhere else. -/
private theorem follow_filter {segments : List (List Char)} {there : List String}
    (h : follow t here segments = some there) :
    follow t here (segments.filter (!Path.silent ·)) = some there := by
  induction segments generalizing here with
  | nil => exact h
  | cons s rest ih =>
    rw [follow_cons] at h
    split at h
    case isFalse => cases h
    case isTrue hdir =>
      by_cases hs : Path.silent s = true
      · rw [if_pos hs] at h
        rw [List.filter_cons_of_neg (by simp [hs])]
        exact ih h
      · rw [List.filter_cons_of_pos (by simp [hs]), follow_cons, if_pos hdir]
        rw [if_neg hs] at h ⊢
        by_cases hup : (s == ['.', '.']) = true
        · rw [if_pos hup] at h ⊢
          exact ih h
        · rw [if_neg hup] at h ⊢
          split at h
          case isTrue hnext =>
            rw [if_pos hnext]
            exact ih h
          case isFalse => cases h

end Follow
end FileTree

namespace Disk

variable {d : Disk} {p q : Path} {c : Content} {text : String} {names place : List String}

section Locate

/-- Where the way to everything below a path starts. -/
def start? (d : Disk) (p : Path) : Option (List String) :=
  d.tree.follow (if p.isAbsolute then [] else d.directory) p.front

theorem start?_of_locate? (h : d.locate? p = some place) : d.start? p = some place := by
  unfold locate? at h
  split at h
  case isTrue => cases h
  case isFalse =>
    rcases Path.pieces_eq_front p with ⟨_, hpieces⟩ | hpieces
    · rwa [hpieces] at h
    · rw [hpieces, FileTree.follow_append, Option.bind_eq_some_iff] at h
      obtain ⟨there, hthere, hlast⟩ := h
      -- The separator at the end asks for a directory, and stays there.
      rw [FileTree.follow_cons] at hlast
      split at hlast
      case isTrue =>
        change some there = some place at hlast
        rwa [hlast] at hthere
      case isFalse => cases hlast

/-- A path to a directory leads there, with or without a separator at the end. -/
theorem locate?_of_start? (htext : p.text.toList ≠ []) (h : d.start? p = some place)
    (hdir : FileTree.kindAt place d.tree = some true) : d.locate? p = some place := by
  have hempty : p.text.isEmpty = false := by
    rw [Bool.eq_false_iff]
    intro hempty
    exact htext (by rw [String.isEmpty_iff.mp hempty]; rfl)
  rw [locate?, hempty]
  rcases Path.pieces_eq_front p with ⟨_, hpieces⟩ | hpieces
  · rw [hpieces]
    exact h
  · rw [hpieces, FileTree.follow_append]
    change (d.start? p).bind _ = _
    rw [h, Option.bind_some, FileTree.follow_cons, if_pos hdir]
    rfl

private theorem locate?_down (h : ∀ n ∈ names, Path.isName n = true) (hne : names ≠ []) :
    d.locate? (p.down names) =
      (d.start? p).bind fun here => d.tree.follow here (names.map String.toList) := by
  unfold locate? start?
  have htext : (p.down names).text.isEmpty = false := by
    rw [Bool.eq_false_iff]
    intro hempty
    have hnil := Path.toList_down (p := p) h hne
    rw [String.isEmpty_iff.mp hempty] at hnil
    exact Path.toList_ofNames_ne_nil h hne (List.append_eq_nil_iff.mp hnil.symm).2
  rw [htext, Path.isAbsolute_down h, Path.pieces_down h hne, FileTree.follow_append]
  rfl

theorem start?_down (h : ∀ n ∈ names, Path.isName n = true) :
    d.start? (p.down names) =
      (d.start? p).bind fun here => d.tree.follow here (names.map String.toList) := by
  unfold start?
  rw [Path.isAbsolute_down h, Path.front_down h, FileTree.follow_append]

theorem locate?_down_of_start? {here : List String} (hstart : d.start? p = some here)
    (hhere : (FileTree.at? here d.tree).isSome = true) (h : ∀ n ∈ names, Path.isName n = true)
    (hne : names ≠ []) :
    d.locate? (p.down names) =
      if (FileTree.at? (here ++ names) d.tree).isSome then some (here ++ names) else none := by
  rw [locate?_down h hne, hstart]
  exact FileTree.follow_names h hhere

/-- Paths with the same components that both lead somewhere lead to the same place. -/
theorem locate?_eq_of_components_eq {other : List String} (h : p.components = q.components)
    (hp : d.locate? p = some place) (hq : d.locate? q = some other) : place = other := by
  have hfollow : d.tree.follow (if p.isAbsolute then [] else d.directory)
      (p.front.filter (!Path.silent ·)) = some place :=
    FileTree.follow_filter (start?_of_locate? hp)
  have hfollow' : d.tree.follow (if q.isAbsolute then [] else d.directory)
      (q.front.filter (!Path.silent ·)) = some other :=
    FileTree.follow_filter (start?_of_locate? hq)
  obtain ⟨habs, hsegments⟩ := Path.front_eq_of_components_eq h
  rw [habs, hsegments, hfollow', Option.some_inj] at hfollow
  exact hfollow.symm

end Locate

def content? (d : Disk) (p : Path) : Option Content :=
  (d.locate? p).bind fun names => FileTree.contentAt names d.tree

theorem read?_eq (d : Disk) (p : Path) : d.read? p = (d.content? p).bind Content.text? := by
  unfold read? find? content? FileTree.contentAt
  cases d.locate? p <;> simp [bind, Option.bind_assoc]

theorem read?_eq_some_iff : d.read? p = some text ↔
    ∃ place, d.locate? p = some place ∧ FileTree.contentAt place d.tree = some (.text text) := by
  have htext : ∀ c : Content, c.text? = some text ↔ c = .text text := by
    intro c
    cases c <;> simp [Content.text?]
  simp only [read?_eq, content?, Option.bind_eq_some_iff, htext]
  constructor
  · rintro ⟨c, ⟨place, hplace, hc⟩, rfl⟩
    exact ⟨place, hplace, hc⟩
  · rintro ⟨place, hplace, hc⟩
    exact ⟨_, ⟨place, hplace, hc⟩, rfl⟩

private theorem write_eq (text : String) (h : d.content? p = some c) :
    ∃ names, d.locate? p = some names ∧ FileTree.contentAt names d.tree = some c ∧
      d.write p text = { d with tree := d.tree.write names (.text text) } := by
  obtain ⟨names, hnames, hcontent⟩ := Option.bind_eq_some_iff.mp h
  refine ⟨names, hnames, hcontent, ?_⟩
  unfold write place?
  rw [hnames]
  rfl

section Write

variable (h : d.content? p = some c)
include h

theorem locate?_write : (d.write p text).locate? q = d.locate? q := by
  obtain ⟨names, _, hcontent, hwrite⟩ := write_eq text h
  rw [hwrite]
  unfold locate?
  split
  · rfl
  · exact FileTree.follow_congr (FileTree.kindAt_write hcontent) _ _

private theorem contentAt_write_self (hplace : d.locate? p = some place) :
    FileTree.contentAt place (d.write p text).tree = some (.text text) := by
  obtain ⟨names, hnames, hcontent, hwrite⟩ := write_eq text h
  rw [hplace, Option.some_inj] at hnames
  rw [hwrite, hnames]
  exact FileTree.contentAt_write_self hcontent

private theorem contentAt_write_of_ne (hplace : d.locate? p ≠ some place) :
    FileTree.contentAt place (d.write p text).tree = FileTree.contentAt place d.tree := by
  obtain ⟨names, hnames, hcontent, hwrite⟩ := write_eq text h
  rw [hwrite]
  apply FileTree.contentAt_write_of_ne hcontent
  rintro rfl
  exact hplace hnames

theorem content?_write_of_ne (hq : d.locate? q ≠ d.locate? p) :
    (d.write p text).content? q = d.content? q := by
  rw [content?, content?, locate?_write h]
  cases hplace : d.locate? q with
  | none => rfl
  | some place => exact contentAt_write_of_ne h fun hp => hq (hplace.trans hp.symm)

private theorem isSome_content?_write : ((d.write p text).content? q).isSome = (d.content? q).isSome := by
  by_cases hq : d.locate? q = d.locate? p
  · obtain ⟨place, hplace, _⟩ := write_eq text h
    have hsame : d.content? q = d.content? p := by rw [content?, content?, hq]
    rw [hsame, h, content?, locate?_write h, hq, hplace, Option.bind_some,
      contentAt_write_self h hplace]
    rfl
  · rw [content?_write_of_ne h hq]

end Write

def writeAll (d : Disk) (ws : List (Path × String)) : Disk :=
  ws.foldl (fun d w => d.write w.1 w.2) d

section WriteAll

variable {ws : List (Path × String)}

theorem contentAt_writeAll_of_ne (h : ∀ w ∈ ws, (d.content? w.1).isSome = true)
    (hplace : ∀ w ∈ ws, d.locate? w.1 ≠ some place) :
    FileTree.contentAt place (d.writeAll ws).tree = FileTree.contentAt place d.tree := by
  induction ws generalizing d with
  | nil => rfl
  | cons w ws ih =>
    rw [List.forall_mem_cons] at h hplace
    obtain ⟨c, hc⟩ := Option.isSome_iff_exists.mp h.1
    change FileTree.contentAt place ((d.write w.1 w.2).writeAll ws).tree = _
    rw [ih, contentAt_write_of_ne hc hplace.1]
    · exact fun v hv => (isSome_content?_write hc).trans (h.2 v hv)
    · exact fun v hv => (locate?_write hc).trans_ne (hplace.2 v hv)

theorem contentAt_writeAll_of_mem (h : ∀ w ∈ ws, (d.content? w.1).isSome = true)
    (hapart : ws.Pairwise fun v w => d.locate? v.1 ≠ d.locate? w.1) {w : Path × String} (hw : w ∈ ws)
    (hplace : d.locate? w.1 = some place) :
    FileTree.contentAt place (d.writeAll ws).tree = some (.text w.2) := by
  induction ws generalizing d with
  | nil => cases hw
  | cons v ws ih =>
    rw [List.forall_mem_cons] at h
    rw [List.pairwise_cons] at hapart
    obtain ⟨c, hc⟩ := Option.isSome_iff_exists.mp h.1
    have hcontent : ∀ u ∈ ws, ((d.write v.1 v.2).content? u.1).isSome = true :=
      fun u hu => (isSome_content?_write hc).trans (h.2 u hu)
    change FileTree.contentAt place ((d.write v.1 v.2).writeAll ws).tree = _
    rcases List.mem_cons.mp hw with rfl | hmem
    · rw [contentAt_writeAll_of_ne hcontent, contentAt_write_self hc hplace]
      intro u hu
      rw [locate?_write hc, ← hplace]
      exact (hapart.1 u hu).symm
    · refine ih hcontent ?_ hmem ((locate?_write hc).trans hplace)
      simpa only [locate?_write hc] using hapart.2

end WriteAll
end Disk
end CoroutineCheck

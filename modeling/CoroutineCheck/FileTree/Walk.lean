import CoroutineCheck.FileTree.Repository
/-!
# Walking a file tree

All files below a directory that ignore files do not leave out. An ignore file counts for everything
below its directory; the nearest one decides. `.ignore` files come before `.gitignore` files, and
those count inside a repository only, up to its top. A target that is a file is its own only result.

An ignore file sees a path as it is written from its own directory, so that it matters how the target
of a walk is written. The ignore file that a user keeps for all repositories at once is left out.
-/
namespace CoroutineCheck

structure WalkOptions where
  skipHidden : Bool
  useGitignore : Bool
deriving DecidableEq, Repr

inductive WalkError where
  | missing
  /-- An ignore file above the target has a line that cannot be read. -/
  | unreadable
deriving DecidableEq, Repr

namespace Walk

structure Level where
  directory : Path
  general : IgnoreFile
  git : IgnoreFile
  gitExclude : IgnoreFile
  isRepository : Bool

def Level.ofEntries (d : Disk) (o : WalkOptions) (directory : Path) (es : List (String × FileTree)) :
    Level where
  directory := directory
  general := .ofTree? (es.lookup ".ignore")
  git := if o.useGitignore then .ofTree? (es.lookup ".gitignore") else .empty
  gitExclude := d.excludes es
  isRepository := Repository.isTop es

def bare (path : List Char) : List Char :=
  (Text.after? ['.', '/'] path).getD path

/-- What remains of a path text behind that of a directory; all of it if it starts otherwise. -/
def behind (directory path : List Char) : List Char :=
  match Text.after? directory path with
  | some rest => (Text.after? ['/'] rest).getD rest
  | none => path

/-- A path as the ignore files of a level see it. A mere name is left as it is. -/
def Level.sees (l : Level) (path : List Char) : List Char :=
  let path := bare path
  let top := bare l.directory.text.toList
  if Path.isHere ⟨String.ofList top⟩ || !path.contains '/' then path else behind top path

def Level.isReadable (l : Level) : Bool :=
  l.general.readable && l.git.readable && l.gitExclude.readable

/-- The directories around an entry: from its own up to the target, and those above the target, the
nearest one first. The target stands as it is written and as it is seen from the file system root. -/
structure Surroundings where
  target : Path
  base : Path
  inner : List Level
  outer : List Level

def Surroundings.full (s : Surroundings) (path : List Char) : List Char :=
  let below := if s.target.isHere then path else behind (bare s.target.text.toList) path
  (s.base.join ⟨String.ofList below⟩).text.toList

def Surroundings.levels (s : Surroundings) (entry : Path) : List (Level × List Char) :=
  let path := bare entry.text.toList
  s.inner.map (fun l => (l, l.sees path)) ++ s.outer.map fun l => (l, l.sees (s.full path))

/-- The levels up to the top of the repository, none outside of one. -/
def insideRepository : List (Level × List Char) → List (Level × List Char)
  | [] => []
  | l :: ls =>
    if l.1.isRepository then [l]
    else
      match insideRepository ls with
      | [] => []
      | inside => l :: inside

def verdict? (levels : List (Level × List Char)) (isDir : Bool) : Option Verdict :=
  let ask (file : Level → IgnoreFile) (ls : List (Level × List Char)) : Option Verdict :=
    ls.findSome? fun l => (file l.1).verdict? l.2 isDir
  let inside := insideRepository levels
  (ask Level.general levels).or ((ask Level.git inside).or (ask Level.gitExclude inside))

def isHidden (name : String) : Bool := name.toList.head? == some '.'

def skips (o : WalkOptions) (s : Surroundings) (entry : Path) (name : String) (isDir : Bool) : Bool :=
  match verdict? (s.levels entry) isDir with
  | some .ignored => true
  | some .kept => false
  | none => o.skipHidden && isHidden name

def Surroundings.enter (l : Level) (s : Surroundings) : Surroundings :=
  { s with inner := l :: s.inner }

mutual

def filesBelow (d : Disk) (o : WalkOptions) (s : Surroundings) (here : Path) :
    FileTree → List (Path × Content)
  | .file c => [(here, c)]
  | .dir es => filesAmong d o (s.enter (.ofEntries d o here es)) here es

def filesAmong (d : Disk) (o : WalkOptions) (s : Surroundings) (here : Path) :
    List (String × FileTree) → List (Path × Content)
  | [] => []
  | (name, t) :: rest =>
    let entry := here.join ⟨name⟩
    (if skips o s entry name t.isDir then [] else filesBelow d o s entry t) ++
      filesAmong d o s here rest

end

def pathTo (names : List String) : Path := ⟨"/" ++ "/".intercalate names⟩

/-- The levels of the directories above a place, the nearest one first. A repository above counts
only for those who use its ignore files. -/
def levelsAbove (d : Disk) (o : WalkOptions) (names : List String) : List Level :=
  ((List.range names.length).reverse).map fun k =>
    let above := names.take k
    let es := ((FileTree.at? above d.tree).map FileTree.entries).getD []
    let l := Level.ofEntries d o (pathTo above) es
    { l with isRepository := l.isRepository && o.useGitignore }

end Walk

/-- The files at or below a target with their paths, which start as the target is written. A hyphen
stands for the standard input, which has no files. -/
def Disk.walk (d : Disk) (o : WalkOptions) (target : Path) :
    Except WalkError (List (Path × Content)) :=
  if target.text == "-" then .ok []
  else
    match d.locate? target with
    | none => .error .missing
    | some names =>
      match FileTree.at? names d.tree with
      | none => .error .missing
      | some (.file c) => .ok [(target, c)]
      | some (.dir es) =>
        let outer := Walk.levelsAbove d o names
        if outer.all Walk.Level.isReadable then
          .ok (Walk.filesBelow d o ⟨target, Walk.pathTo names, [], outer⟩ target (.dir es))
        else .error .unreadable

end CoroutineCheck

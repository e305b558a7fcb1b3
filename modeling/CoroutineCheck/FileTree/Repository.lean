import CoroutineCheck.FileTree.IgnoreFile
/-!
# Repositories

A directory with an entry `.git` or `.jj` is the top of a repository. A repository can have an ignore
file of its own among its records. These lie in the directory `.git`, or, if that is a file, where the
file leads to.
-/
namespace CoroutineCheck

namespace Repository

def isTop (es : List (String × FileTree)) : Bool :=
  (es.lookup ".git").isSome || (es.lookup ".jj").isSome

def linked? (line : List Char) : Option Path :=
  (Text.after? "gitdir: ".toList line).map fun cs => ⟨String.ofList cs⟩

/-- The file among linked records that says where the records common to all working copies lie. -/
def commonFile (records : Path) : Path := records.join ⟨"commondir"⟩

/-- The common records, from the line that names them: a line that starts with a dot counts from the
linked records. -/
def common (records : Path) (line : List Char) : Path :=
  if line.head? == some '.' then records.join ⟨String.ofList line⟩ else ⟨String.ofList line⟩

def excludeFile (records : Path) : Path := records.join ⟨"info/exclude"⟩

end Repository

namespace IgnoreFile

def unreadable : IgnoreFile := ⟨[], false⟩

def ofTree? (t : Option FileTree) : IgnoreFile :=
  match t.bind FileTree.content? with
  | some c => .ofContent c
  | none => .empty

end IgnoreFile

def Disk.linkedExcludes (d : Disk) (link : Content) : IgnoreFile :=
  match link.firstLine with
  | .error _ => .unreadable
  | .ok line =>
    match line.bind Repository.linked? with
    | none => .empty
    | some records =>
      match d.find? (Repository.commonFile records) with
      | none => .empty
      | some (.dir _) => .unreadable
      | some (.file c) =>
        match c.firstLine with
        | .error _ => .unreadable
        | .ok none => .empty
        | .ok (some line) =>
          .ofTree? (d.find? (Repository.excludeFile (Repository.common records line)))

def Disk.excludes (d : Disk) (es : List (String × FileTree)) : IgnoreFile :=
  match es.lookup ".git" with
  | some (.file link) => d.linkedExcludes link
  | _ => .ofTree? (FileTree.at? [".git", "info", "exclude"] (.dir es))

end CoroutineCheck

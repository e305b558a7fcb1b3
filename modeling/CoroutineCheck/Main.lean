import CoroutineCheck.Cli.Run
import CoroutineCheck.Kotlin.RowList
/-!
# The program

Reads the part of the disk that a run may look at, runs, prints and writes. The rows of a source file
are those that a parser has left beside it.
-/
namespace CoroutineCheck.Program

private def contentOf (bytes : ByteArray) : Content :=
  match String.fromUTF8? bytes with
  | some s => .text s
  | none => .binary bytes.toList

private def isDirectory (path : String) : IO Bool := do
  let here ← IO.currentDir
  (here / path).isDir

private def isThere (path : String) : IO Bool := do
  let here ← IO.currentDir
  (here / path).pathExists

private partial def load (path : String) : IO FileTree := do
  if ← isDirectory path then
    let here ← IO.currentDir
    let entries ← (here / path).readDir
    return .dir (← entries.toList.mapM fun e => do
      return (e.fileName, ← load (path ++ "/" ++ e.fileName)))
  else
    return .file (contentOf (← IO.FS.readBinFile path))

private def outerFiles : List (List String) :=
  Cli.Host.fileNames.map (fun name => [name]) ++
    [[".ignore"], [".gitignore"], [".git", "info", "exclude"]]

private def namesOf (path : String) : List String :=
  (path.splitOn "/").filter (!·.isEmpty)

private def pathOf (names : List String) : String :=
  "/" ++ "/".intercalate names

private def addFile (tree : FileTree) (names : List String) : IO FileTree := do
  if (← isThere (pathOf names)) && !(← isDirectory (pathOf names)) then
    return tree.write names (contentOf (← IO.FS.readBinFile (pathOf names)))
  else return tree

private def addMark (tree : FileTree) (names : List String) : IO FileTree := do
  if ← isDirectory (pathOf names) then return tree.makeDir names else addFile tree names

private def addAt (disk : Disk) (path : Path) : IO Disk := do
  return { disk with tree := ← addFile disk.tree (namesOf (disk.absolute path).text) }

private def addLinked (disk : Disk) (link : Content) : IO Disk := do
  let .ok (some line) := link.firstLine | return disk
  let some records := Repository.linked? line | return disk
  let disk ← addAt disk (Repository.commonFile records)
  let some (.file c) := disk.find? (Repository.commonFile records) | return disk
  let .ok (some line) := c.firstLine | return disk
  addAt disk (Repository.excludeFile (Repository.common records line))

private def addOuter (tree : FileTree) (names : List String) : IO FileTree := do
  let tree ← outerFiles.foldlM (fun t f => addFile t (names ++ f)) tree
  let tree ← addMark tree (names ++ [".jj"])
  let tree ← addMark tree (names ++ [".git"])
  let disk : Disk := ⟨tree, namesOf (← IO.currentDir).toString⟩
  match FileTree.at? (names ++ [".git"]) tree with
  | some (.file link) => return (← addLinked disk link).tree
  | _ => return tree

private def addTarget (tree : FileTree) (path : String) : IO FileTree := do
  if !(← isThere path) then return tree
  let names := namesOf (← IO.FS.realPath path).toString
  let top ← if ← isDirectory path then pure names else pure names.dropLast
  let tree ← (List.range top.length).foldlM (fun t k => addOuter t (top.take k)) tree
  let found ← load (pathOf top)
  return FileTree.update (fun _ => found) top (some tree)

private def targetOf (args : List String) : String :=
  match Cli.Invocation.ofArguments args with
  | .ok ⟨_, _, .check q⟩ => q.path.text
  | _ => "."

private def configOf (args : List String) : Option Path :=
  match Cli.Invocation.ofArguments args with
  | .ok i => i.config
  | .error _ => none

private def sharedDirectory : IO (Option Path) := do
  match ← IO.getEnv "CORO_LINT_CONFIG_DIR" with
  | some dir => return some ⟨dir⟩
  | none => return (← IO.getEnv "HOME").map fun home => (Path.mk home).join ⟨".coro-lint"⟩

/-- The part of the disk that a run may look at. -/
private def loadHost (args : List String) : IO Cli.Host := do
  let cwd := namesOf (← IO.currentDir).toString
  let shared ← sharedDirectory
  let disk : Disk := ⟨(FileTree.dir []).makeDir cwd, cwd⟩
  let tree ← addOuter disk.tree cwd
  let tree ← addTarget tree (disk.absolute ⟨targetOf args⟩).text
  let more := (configOf args).toList ++ (shared.map fun dir => dir.join ⟨"config.toml"⟩).toList
  let tree ← more.foldlM (fun t p => addFile t (namesOf (disk.absolute p).text)) tree
  return ⟨{ disk with tree := tree }, shared⟩

end CoroutineCheck.Program

def main (args : List String) : IO UInt32 := do
  let host ← CoroutineCheck.Program.loadHost args
  let rows := CoroutineCheck.Kotlin.recordedRows host.disk.tree
  let outcome := CoroutineCheck.Cli.run host (fun source => rows.lookup source) args
  IO.print outcome.output
  for note in outcome.notes do
    IO.eprintln note
  for failure in outcome.failure do
    IO.eprintln ("Error: " ++ failure.message)
  for (path, text) in outcome.writes do
    IO.FS.writeFile path.text text
  return outcome.status.toUInt32

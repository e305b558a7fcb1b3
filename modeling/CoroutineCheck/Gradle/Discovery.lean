import CoroutineCheck.FileTree.Walk
import CoroutineCheck.Gradle.Coordinate
import CoroutineCheck.Symbol
/-!
# Dependencies of a project

All coordinates in the build scripts and version catalogues below a directory, each once and in
order. Hidden files are not looked at, and a catalogue that is no document is passed over.
-/
namespace CoroutineCheck.Gradle

inductive DiscoveryError where
  | walk (e : WalkError)
  | notText (path : Path)
deriving DecidableEq, Repr

inductive BuildFile where
  | script
  | catalog
deriving DecidableEq, Repr

def BuildFile.ofName? (name : String) : Option BuildFile :=
  if name == "build.gradle" || name == "build.gradle.kts" then some .script
  else if name == "libs.versions.toml" then some .catalog
  else none

def BuildFile.coordinates (text : String) : BuildFile → List String
  | script => scriptCoordinates text
  | catalog => (catalogCoordinates? text).getD []

def coordinatesOf (path : Path) (c : Content) : Except DiscoveryError (List String) :=
  match path.fileName?.bind BuildFile.ofName? with
  | none => .ok []
  | some kind =>
    match c.text? with
    | some text => .ok (kind.coordinates text)
    | none => .error (.notText path)

/-- Texts in order, each once. -/
def distinct (texts : List String) : List String :=
  (texts.mergeSort fun a b => a ≤ b).eraseReps

def discover (d : Disk) (root : Path) : Except DiscoveryError (List Dependency) := do
  let files ← (d.walk ⟨true, true⟩ root).mapError DiscoveryError.walk
  let found ← files.mapM fun f => coordinatesOf f.1 f.2
  return (distinct found.flatten).map Dependency.mk

end CoroutineCheck.Gradle

import CoroutineCheck.Cli.Outcome
import CoroutineCheck.Settings.Document
/-!
# The settings file

A settings file is named on the command line, or found in the directory of the target or the nearest
directory above it as the target's path is written, or kept in a directory for all projects. Without
any, the standard settings hold.
-/
namespace CoroutineCheck.Cli

/-- The disk, and the directory with the settings for all projects. -/
structure Host where
  disk : Disk
  sharedDirectory : Option Path

namespace Host

def fileNames : List String := ["coro-lint.toml", ".coro-lint.toml"]

/-- The directory to start from: the target, or the directory of a target that is a file. -/
def startDirectory (h : Host) (target : Path) : Path :=
  if h.disk.isFile target then target.parent?.getD target else target

def projectFile? (h : Host) (target : Path) : Option Path :=
  (h.startDirectory target).ancestors.findSome? fun dir =>
    (fileNames.map fun name => dir.join ⟨name⟩).find? h.disk.isFile

def sharedFile? (h : Host) : Option Path :=
  (h.sharedDirectory.map fun dir => dir.join ⟨"config.toml"⟩).filter h.disk.isFile

def settingsFile? (h : Host) (target : Path) (named : Option Path) : Option Path :=
  named.or ((h.projectFile? target).or h.sharedFile?)

def settings (h : Host) (target : Path) (named : Option Path) : Except Failure Settings :=
  match h.settingsFile? target named with
  | none => .ok .standard
  | some path =>
    match (h.disk.read? path).bind Settings.read? with
    | some s => .ok s
    | none => .error (.settings path)

end Host
end CoroutineCheck.Cli

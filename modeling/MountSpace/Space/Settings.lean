/-
The settings of a namespace: its name, how often watched paths are looked at, and the host directories to mount when it
starts.
-/
import MountSpace.Filesystem.FsPath

namespace MountSpace

/-- a host directory to mount, and the namespace path to mount it at -/
structure MountSetting where
  source : FsPath
  at_ : String
  deriving DecidableEq, Repr

/-- the settings of a namespace, each with its default -/
structure Settings where
  name : String := "graft"
  /-- the time between two looks at a watched path, in milliseconds -/
  pollMs : Nat := 5000
  mounts : List MountSetting := []
  deriving DecidableEq, Repr

/-- the time between two looks, never under a millisecond -/
def Settings.pollInterval (s : Settings) : Nat := max s.pollMs 1

end MountSpace

/-
The nodes of a namespace: directories held in memory and mounts. A mount takes the place of the node it shadows, which
keeps its number and waits, detached, until the mount goes. Each mount carries a record with a serial number, the same
one for as long as the mount lives and never given to another.
-/
import MountSpace.Filesystem.Basic

namespace MountSpace

/-- the number of a vertex; numbers are given out in order and never twice -/
abbrev NodeId := Nat

/-- the times a directory or a mount keeps -/
structure NodeTimes where
  created : Time
  accessed : Time
  modified : Time
  deriving DecidableEq, Repr

/-- all times at one moment -/
def NodeTimes.at (now : Time) : NodeTimes := ⟨now, now, now⟩

/-- a directory without storage -/
structure Directory where
  name : String
  times : NodeTimes
  /-- the vertex it shadows, if it took one's place and left it waiting -/
  shadowed : Option NodeId
  deriving DecidableEq, Repr

/-- a directory made at a moment -/
def Directory.new (name : String) (now : Time) : Directory := ⟨name, .at now, none⟩

/-- one act of mounting: where it was done and what it shows -/
structure MountRecord where
  serial : Nat
  point : AbsolutePath
  source : ExternalPath
  deriving DecidableEq, Repr

/-- the root of what is mounted -/
structure MountNode where
  name : String
  record : MountRecord
  times : NodeTimes
  /-- the vertex whose place it took -/
  shadowed : NodeId
  deriving DecidableEq, Repr

/-- a node of the tree -/
inductive Node where
  | directory (dir : Directory)
  | mount (mount : MountNode)
  deriving DecidableEq, Repr

namespace Node

/-- the name of a node -/
def name : Node → String
  | directory d => d.name
  | mount m => m.name

/-- the times of a node -/
def times : Node → NodeTimes
  | directory d => d.times
  | mount m => m.times

/-- the vertex a node shadows -/
def shadowed : Node → Option NodeId
  | directory d => d.shadowed
  | mount m => some m.shadowed

/-- the node is a mount -/
def isMount : Node → Bool
  | directory _ => false
  | mount _ => true

/-- the node under another name -/
def setName (name : String) : Node → Node
  | directory d => directory { d with name }
  | mount m => mount { m with name }

/-- the node changed at a moment -/
def touch (now : Time) : Node → Node
  | directory d => directory { d with times := { d.times with modified := now } }
  | mount m => mount { m with times := { m.times with modified := now } }

end Node

end MountSpace

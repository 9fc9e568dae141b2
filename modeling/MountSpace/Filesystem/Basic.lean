/-
What a mounted filesystem can be asked: attributes, directory entries and bytes, each by path. A namespace reads
mounted content through these three queries only, so any record of them can be mounted. Reading to the end reserves
memory for the size that is told, and asks again from where the last answer stopped until nothing comes; positions are
words of 64 bits, which bounds the loop.
-/
import MountSpace.Attributes
import MountSpace.Path.Basic
import MountSpace.Filesystem.FsPath

namespace MountSpace

/-- the answers of one filesystem at one moment -/
structure Filesystem where
  getattr : FsPath → Except FsError Attributes
  readdir : FsPath → Except FsError (List Entry)
  /-- at most so many bytes from an offset, fewer only at the end, none past it -/
  read : FsPath → Nat → Nat → Except FsError ByteArray

/-- the number of bytes asked for at a time when a whole file is read -/
def readChunk : Nat := 64 * 1024

/-- positions in a file are below this -/
def positionLimit : Nat := 1 <<< 64

/-- memory is reserved for fewer bytes than this -/
def reserveLimit : Nat := 1 <<< 63

/-- no memory can be reserved for so many bytes; the program ends there -/
def noRoom : FsError := .other "capacity overflow"

/-- read on from a position until an empty answer; the second part is the position reached, also after an error -/
def readOn (read : Nat → Except FsError ByteArray) (position : Nat) (sofar : ByteArray) :
    Except FsError ByteArray × Nat :=
  match read position with
  | .error e => (.error e, position)
  | .ok chunk =>
    if chunk.size = 0 then (.ok sofar, position)
    else if position + chunk.size < positionLimit then readOn read (position + chunk.size) (sofar ++ chunk)
    else (.ok (sofar ++ chunk), position + chunk.size)
termination_by positionLimit - position

namespace Filesystem

/-- the path has attributes -/
def pathExists (fs : Filesystem) (path : FsPath) : Bool :=
  match fs.getattr path with
  | .ok _ => true
  | .error _ => false

/-- the whole content of a file -/
def readAll (fs : Filesystem) (path : FsPath) : Except FsError ByteArray :=
  match fs.getattr path with
  | .error e => .error e
  | .ok attributes =>
    if reserveLimit ≤ attributes.size then .error noRoom
    else (readOn (fun position => fs.read path position readChunk) 0 .empty).1

end Filesystem

/-- which filesystem a mount shows: another namespace, or one of the volumes -/
inductive FsRef where
  | space (id : NamespaceId)
  | volume (n : Nat)
  deriving DecidableEq, Repr

/-- a place in a filesystem -/
structure ExternalPath where
  fs : FsRef
  path : FsPath
  deriving DecidableEq, Repr

/-- the answers of all filesystems that can be mounted, at one moment -/
abbrev External := FsRef → Filesystem

end MountSpace

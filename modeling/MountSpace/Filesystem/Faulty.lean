/-
A filesystem with faults: chosen paths fail with a given error, on one of the queries or on all of them, and a read may
bring at most so many bytes. Everything else is answered by the filesystem behind it.
-/
import MountSpace.Filesystem.Basic

namespace MountSpace

/-- the queries of a filesystem -/
inductive Query where
  | getattr | readdir | read
  deriving DecidableEq, Repr

/-- one fault: the path it is on, the query it is on, or all of them, and the error -/
structure Fault where
  path : FsPath
  on : Option Query
  error : FsError
  deriving DecidableEq, Repr

/-- the faults of a filesystem and the most bytes one read brings -/
structure Faults where
  faults : List Fault := []
  maxRead : Option Nat := none
  deriving DecidableEq, Repr

namespace Faults

/-- no more fault on a path -/
def clear (f : Faults) (path : FsPath) : Faults := { f with faults := f.faults.filter (·.path ≠ path) }

/-- a fault, in place of the one its path may have -/
def put (f : Faults) (fault : Fault) : Faults :=
  { f with faults := fault :: (f.clear fault.path).faults }

/-- the error of a query on exactly this path -/
def error? (f : Faults) (query : Query) (path : FsPath) : Option FsError :=
  (f.faults.find? fun fault => fault.path == path && (fault.on == none || fault.on == some query)).map Fault.error

/-- the error if there is one, and the answer otherwise -/
def guard {α : Type} (f : Faults) (query : Query) (path : FsPath) (answer : Except FsError α) : Except FsError α :=
  match f.error? query path with
  | some e => .error e
  | none => answer

end Faults

/-- the filesystem with faults -/
def Filesystem.withFaults (fs : Filesystem) (f : Faults) : Filesystem where
  getattr path := f.guard .getattr path (fs.getattr path)
  readdir path := f.guard .readdir path (fs.readdir path)
  read path offset size :=
    f.guard .read path (fs.read path offset (match f.maxRead with | some most => min size most | none => size))

end MountSpace

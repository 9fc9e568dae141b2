/-
What a namespace tells about a file: its attributes, its entry in a directory, the ways to open it and the accesses to
ask for. Entries and attributes have a form as structured data, `ofValue?` reads back what `toValue` writes.
-/
import MountSpace.Value

namespace MountSpace

/-- a moment, in nanoseconds since the epoch; earlier moments are negative -/
abbrev Time := Int

/-- what a path names -/
inductive FileKind where
  | file | directory | symlink
  deriving DecidableEq, Repr

namespace FileKind

/-- the kind by name, in data and in reports -/
def name : FileKind → String
  | file => "File"
  | directory => "Directory"
  | symlink => "Symlink"

/-- all kinds -/
def all : List FileKind := [file, directory, symlink]

/-- the kind with a name -/
def ofName? (s : String) : Option FileKind := all.find? (·.name == s)

/-- a kind as data: its name, or a record of its name alone without content -/
def ofValue? : Value → Option FileKind
  | .text s => ofName? s
  | .record [(s, .null)] => ofName? s
  | _ => none

end FileKind

/-- attributes of a file or directory; directories of a namespace have size 0 -/
structure Attributes where
  size : Nat
  kind : FileKind
  mtime : Time
  atime : Option Time
  ctime : Option Time
  deriving DecidableEq, Repr

/-- a moment as data, in seconds and nanoseconds; a moment before the epoch has no such form -/
def Time.toValue? (t : Time) : Option Value :=
  if t < 0 then none
  else some (.record [("secs_since_epoch", .int (t / 1000000000)), ("nanos_since_epoch", .int (t % 1000000000))])

/-- a moment read from its data -/
def Time.ofValue? (v : Value) : Option Time := do
  let secs ← (← v.field? "secs_since_epoch").word?
  let nanos ← (← v.field? "nanos_since_epoch").word?
  if nanos < 1 <<< 32 then some (secs * 1000000000 + nanos : Nat) else none

namespace Attributes

/-- a regular file last changed at a moment -/
def file (size : Nat) (time : Time) : Attributes := ⟨size, .file, time, some time, some time⟩

/-- a directory last changed at a moment -/
def directory (time : Time) : Attributes := ⟨0, .directory, time, some time, some time⟩

/-- a moment that may be unknown, as data -/
def optionalTime : Option Time → Option Value
  | none => some .null
  | some t => Time.toValue? t

/-- a moment that may be unknown, from data; a field left out is unknown too -/
def optionalTime? : Option Value → Option (Option Time)
  | none | some .null => some none
  | some v => (Time.ofValue? v).map some

/-- attributes as data, unless one of the moments is before the epoch -/
def toValue? (a : Attributes) : Option Value := do
  let mtime ← Time.toValue? a.mtime
  let atime ← optionalTime a.atime
  let ctime ← optionalTime a.ctime
  some (.record [("size", .int a.size), ("kind", .text a.kind.name), ("mtime", mtime), ("atime", atime),
    ("ctime", ctime)])

/-- attributes from data -/
def ofValue? (v : Value) : Option Attributes := do
  let size ← (← v.field? "size").word?
  let kind ← FileKind.ofValue? (← v.field? "kind")
  let mtime ← Time.ofValue? (← v.field? "mtime")
  let atime ← optionalTime? (v.field? "atime")
  let ctime ← optionalTime? (v.field? "ctime")
  some ⟨size, kind, mtime, atime, ctime⟩

end Attributes

/-- one name in a directory -/
structure Entry where
  name : String
  kind : FileKind
  deriving DecidableEq, Repr

namespace Entry

/-- an entry for a regular file -/
def file (name : String) : Entry := ⟨name, .file⟩

/-- an entry for a directory -/
def directory (name : String) : Entry := ⟨name, .directory⟩

/-- an entry as data -/
def toValue (e : Entry) : Value := .record [("name", .text e.name), ("kind", .text e.kind.name)]

/-- an entry from data: a record, whose other fields do not matter, or a list of exactly name and kind -/
def ofValue? : Value → Option Entry
  | .list [name, kind] => do some ⟨← name.text?, ← FileKind.ofValue? kind⟩
  | v@(.record _) => do some ⟨← (← v.field? "name").text?, ← FileKind.ofValue? (← v.field? "kind")⟩
  | _ => none

end Entry

/-- what an opening asks for -/
structure OpenFlags where
  read : Bool := true
  write : Bool := false
  append : Bool := false
  create : Bool := false
  truncate : Bool := false
  deriving DecidableEq, Repr

namespace OpenFlags

/-- reading only -/
def reading : OpenFlags := {}

/-- reading and writing -/
def writing : OpenFlags := { write := true }

/-- writing from nothing -/
def truncating : OpenFlags := { write := true, create := true, truncate := true }

/-- anything but reading is asked for -/
def requestsModification (f : OpenFlags) : Bool := f.write || f.append || f.create || f.truncate

end OpenFlags

/-- an access to ask for -/
inductive AccessMode where
  | read | write | execute
  deriving DecidableEq, Repr

/-- the element whose name is the text, in any ASCII case -/
def byName? {α : Type} (name : α → String) (all : List α) (text : String) : Option α :=
  all.find? fun x => (name x).toList == text.toList.map Char.toLower

namespace AccessMode

/-- the access by name -/
def name : AccessMode → String
  | read => "read"
  | write => "write"
  | execute => "execute"

/-- the access with a name, in any ASCII case -/
def ofName? : String → Option AccessMode := byName? name [read, write, execute]

end AccessMode

end MountSpace

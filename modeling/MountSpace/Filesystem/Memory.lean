/-
A filesystem held in memory. Its owner fills and changes it, a namespace only reads it. Entries are kept under their
normalised path, a list of plain names: separators and single dots do not count, two dots go up and stop at the root.
The root is always a directory and every entry lies in one. An operation that fails returns the store it was given.
-/
import MountSpace.Filesystem.Basic
import MountSpace.Table

namespace MountSpace

/-- an entry of the store -/
inductive MemoryEntry where
  | file (data : ByteArray) (attributes : Attributes)
  | directory (attributes : Attributes)

namespace MemoryEntry

/-- the attributes of an entry -/
def attributes : MemoryEntry → Attributes
  | file _ a => a
  | directory a => a

/-- the entry with another modification time -/
def setMtime (time : Time) : MemoryEntry → MemoryEntry
  | file data a => file data { a with mtime := time }
  | directory a => directory { a with mtime := time }

end MemoryEntry

/-- a normalised path: plain names from the root -/
abbrev MemoryKey := List (List UInt8)

/-- the store: entries under their normalised paths -/
structure MemoryStore where
  entries : Table MemoryKey MemoryEntry

namespace MemoryStore

/-- a store with nothing but its root -/
def empty (now : Time) : MemoryStore := ⟨[([], .directory (.directory now))]⟩

/-- one component read from a normalised path -/
def normalizeStep (key : MemoryKey) : FsComponent → MemoryKey
  | .root | .here => key
  | .up => key.dropLast
  | .normal name => key ++ [name]

/-- the normalised path -/
def normalize (path : FsPath) : MemoryKey := path.components.foldl normalizeStep []

/-- a normalised path as messages show it -/
def keyText (key : MemoryKey) : String := (FsPath.ofNames key).text

/-- the entry under a key -/
def get? (store : MemoryStore) (key : MemoryKey) : Option MemoryEntry := store.entries.lookup key

/-- an entry under a key, in place of the one there may be -/
def insert (store : MemoryStore) (key : MemoryKey) (entry : MemoryEntry) : MemoryStore :=
  ⟨store.entries.put key entry⟩

/-- the store without an entry and all that lies below it -/
def erase (store : MemoryStore) (key : MemoryKey) : MemoryStore :=
  ⟨store.entries.filter fun p => !key.isPrefixOf p.1⟩

theorem get?_insert (store : MemoryStore) (key other : MemoryKey) (entry : MemoryEntry) :
    (store.insert key entry).get? other = if other == key then some entry else store.get? other :=
  Table.lookup_put key other entry store.entries

theorem get?_erase (store : MemoryStore) (key other : MemoryKey) :
    (store.erase key).get? other = if !key.isPrefixOf other then store.get? other else none :=
  Table.lookup_filter (fun k => !key.isPrefixOf k) other store.entries

/-- make the missing ones of these directories, the outermost first; a file among them is an error -/
def ensureAll (now : Time) : List MemoryKey → MemoryStore → Except FsError Unit × MemoryStore
  | [], store => (.ok (), store)
  | key :: keys, store =>
    match store.get? key with
    | some (.directory _) => ensureAll now keys store
    | some (.file _ _) => (.error (.notADirectory (keyText key)), store)
    | none => ensureAll now keys (store.insert key (.directory (.directory now)))

/-- the directories a path lies in, the outermost first, without the root -/
def ancestors (key : MemoryKey) : List MemoryKey := (List.range (key.length - 1)).map fun n => key.take (n + 1)

/-- make the missing directories above a path -/
def ensureParents (now : Time) (key : MemoryKey) (store : MemoryStore) : Except FsError Unit × MemoryStore :=
  ensureAll now (ancestors key) store

/-- write a file, new or in place of a file, and the directories above it -/
def insertFile (now : Time) (path : FsPath) (data : ByteArray) (store : MemoryStore) :
    Except FsError Unit × MemoryStore :=
  let key := normalize path
  if key = [] then (.error (.isADirectory "/"), store)
  else match ensureParents now key store with
    | (.error e, store) => (.error e, store)
    | (.ok _, store) =>
      match store.get? key with
      | some (.directory _) => (.error (.isADirectory (keyText key)), store)
      | _ => (.ok (), store.insert key (.file data (.file data.size now)))

/-- make a directory and those above it; one that is there already stays as it is -/
def insertDirectory (now : Time) (path : FsPath) (store : MemoryStore) : Except FsError Unit × MemoryStore :=
  let key := normalize path
  match ensureParents now key store with
  | (.error e, store) => (.error e, store)
  | (.ok _, store) =>
    match store.get? key with
    | some (.directory _) => (.ok (), store)
    | some (.file _ _) => (.error (.alreadyExists (keyText key)), store)
    | none => (.ok (), store.insert key (.directory (.directory now)))

/-- take an entry away with all that lies below it -/
def remove (path : FsPath) (store : MemoryStore) : Except FsError Unit × MemoryStore :=
  let key := normalize path
  if key = [] then (.error (.permissionDenied "cannot remove root"), store)
  else match store.get? key with
    | none => (.error (.notFound (keyText key)), store)
    | some _ => (.ok (), store.erase key)

/-- give an entry a modification time -/
def setMtime (path : FsPath) (time : Time) (store : MemoryStore) : Except FsError Unit × MemoryStore :=
  let key := normalize path
  match store.get? key with
  | none => (.error (.notFound (keyText key)), store)
  | some entry => (.ok (), store.insert key (entry.setMtime time))

/-- the attributes of an entry -/
def getattr (store : MemoryStore) (path : FsPath) : Except FsError Attributes :=
  match store.get? (normalize path) with
  | some entry => .ok entry.attributes
  | none => .error (.notFound (keyText (normalize path)))

/-- the entry for a key in the listing of a directory -/
def entryIn (directory : MemoryKey) : MemoryKey × MemoryEntry → Option Entry
  | (key, entry) =>
    match key.getLast? with
    | some name => if key.dropLast = directory then some ⟨Text.lossy name, entry.attributes.kind⟩ else none
    | none => none

/-- the entries of a directory by name -/
def readdir (store : MemoryStore) (path : FsPath) : Except FsError (List Entry) :=
  let key := normalize path
  match store.get? key with
  | some (.directory _) =>
    .ok ((store.entries.filterMap (entryIn key)).mergeSort fun a b => decide (a.name ≤ b.name))
  | some (.file _ _) => .error (.notADirectory (keyText key))
  | none => .error (.notFound (keyText key))

/-- the bytes of a file from an offset -/
def read (store : MemoryStore) (path : FsPath) (offset size : Nat) : Except FsError ByteArray :=
  let key := normalize path
  match store.get? key with
  | some (.file data _) => .ok (data.extract (min offset data.size) (min (offset + size) data.size))
  | some (.directory _) => .error (.isADirectory (keyText key))
  | none => .error (.notFound (keyText key))

/-- the store as a filesystem -/
def filesystem (store : MemoryStore) : Filesystem := ⟨store.getattr, store.readdir, store.read⟩

end MemoryStore

end MountSpace

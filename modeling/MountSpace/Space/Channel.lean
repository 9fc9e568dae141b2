/-
Reading a file of a mounted filesystem from a position. A channel remembers where the file is, its size when it was
opened, and the position, which moves past what has been read and may be put anywhere. A namespace, read this way, is a
filesystem itself and can be mounted in another.
-/
import MountSpace.Space.Basic

namespace MountSpace

/-- an open file -/
structure Channel where
  source : ExternalPath
  /-- the size when it was opened -/
  size : Nat
  position : Nat
  deriving DecidableEq, Repr

namespace Channel

/-- the channel at another position -/
def seek (c : Channel) (position : Nat) : Channel := { c with position }

/-- at most so many bytes at the position, which moves past them -/
def read (ext : External) (c : Channel) (size : Nat) : Except FsError ByteArray × Channel :=
  match (ext c.source.fs).read c.source.path c.position size with
  | .error e => (.error e, c)
  | .ok data => (.ok data, { c with position := c.position + data.size })

/-- all bytes from the position to the end, with memory reserved for those between it and the size -/
def readToEnd (ext : External) (c : Channel) : Except FsError ByteArray × Channel :=
  if reserveLimit ≤ c.size - c.position then (.error noRoom, c)
  else
    let (answer, position) :=
      readOn (fun position => (ext c.source.fs).read c.source.path position readChunk) c.position .empty
    (answer, { c with position })

end Channel

namespace Namespace

/-- open a file of a mounted filesystem; whatever would change it is refused once the path has resolved -/
def openRead (ext : External) (ns : Namespace) (path : AbsolutePath) (flags : OpenFlags) : Except FsError Channel :=
  match ns.place ext path with
  | .error e => .error e
  | .ok place =>
    if flags.requestsModification then .error .readOnly
    else match place with
      | .directory _ _ | .mount _ _ => .error (.isADirectory path.text)
      | .real _ source =>
        match (ext source.fs).getattr source.path with
        | .error e => .error e
        | .ok attributes =>
          if attributes.kind = .directory then .error (.isADirectory path.text)
          else .ok ⟨source, attributes.size, 0⟩

/-- the whole content of a file -/
def readAll (ext : External) (ns : Namespace) (path : AbsolutePath) : Except FsError ByteArray :=
  match ns.openRead ext path .reading with
  | .error e => .error e
  | .ok channel => (channel.readToEnd ext).1

/-- the names of plain components, for a path without any other but the root; names must be well-formed text -/
def namesOf (path : FsPath) : List FsComponent → Except FsError (List String)
  | [] => .ok []
  | .root :: rest => namesOf path rest
  | .normal name :: rest =>
    match Text.decode? name with
    | none => .error (.invalidPath path.text)
    | some name =>
      match namesOf path rest with
      | .error e => .error e
      | .ok names => .ok (name :: names)
  | _ :: _ => .error (.invalidPath path.text)

/-- a path given to the namespace as a filesystem, as a path of its own -/
def ofFsPath (ns : Namespace) (path : FsPath) : Except FsError AbsolutePath :=
  match namesOf path path.components with
  | .error e => .error e
  | .ok names => AbsolutePath.ofNames ns.id names

/-- the namespace as a filesystem -/
def filesystem (ext : External) (ns : Namespace) : Filesystem where
  getattr path :=
    match ns.ofFsPath path with
    | .error e => .error e
    | .ok path => ns.readAttributes ext path
  readdir path :=
    match ns.ofFsPath path with
    | .error e => .error e
    | .ok path => ns.listDirectory ext path
  read path offset size :=
    match ns.ofFsPath path with
    | .error e => .error e
    | .ok path =>
      match ns.openRead ext path .reading with
      | .error e => .error e
      | .ok channel => ((channel.seek offset).read ext size).1

end Namespace

end MountSpace

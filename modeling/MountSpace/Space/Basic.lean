/-
A namespace: a tree of directories with filesystems mounted in it. Every operation first asks whether the namespace is
open and whether the paths it is given are its own, then resolves, then acts on what it found there.

Operations that change the namespace return it together with their answer, also when they fail. The clock is an
argument: an operation that reads it several times reads `now`, `now + 1` and so on.
-/
import MountSpace.Tree.Resolve
import MountSpace.Space.Settings

namespace MountSpace

/-- one namespace: its number, its settings, its tree, its mounts in the order they were made -/
structure Namespace where
  id : NamespaceId
  settings : Settings
  tree : Tree
  mounts : List MountRecord
  isOpen : Bool
  deriving DecidableEq, Repr

namespace Namespace

/-- an open namespace with nothing but its root -/
def new (id : NamespaceId) (settings : Settings) (now : Time) : Namespace :=
  ⟨id, settings, .withRoot (.new "/" now), [], true⟩

/-- the root of the namespace -/
def rootPath (ns : Namespace) : AbsolutePath := .root ns.id

/-- refuse a path of another namespace -/
def checkBelongs (ns : Namespace) (path : AbsolutePath) : Except FsError Unit :=
  if path.owner = ns.id then .ok ()
  else .error (.crossNamespace
    ("path " ++ path.text ++ " belongs to " ++ path.owner.text ++ ", not " ++ ns.id.text))

/-- refuse everything once closed, and any path of another namespace -/
def check (ns : Namespace) (path : AbsolutePath) : Except FsError Unit :=
  if ns.isOpen then ns.checkBelongs path else .error .closed

/-- where a path leads, for an operation that is about to act on it -/
def place (ext : External) (ns : Namespace) (path : AbsolutePath) : Except FsError Place :=
  match ns.check path with
  | .error e => .error e
  | .ok _ => ns.tree.resolve ext path

/-! Changes of the tree. -/

/-- one new directory, in a directory of the tree; the root is always there -/
def createDirectory (ext : External) (now : Time) (path : AbsolutePath) (ns : Namespace) :
    Except FsError Unit × Namespace :=
  match ns.check path with
  | .error e => (.error e, ns)
  | .ok _ =>
    match path.parent?, path.fileName? with
    | some parent, some name =>
      match ns.tree.resolve ext parent with
      | .error e => (.error e, ns)
      | .ok (.directory id _) =>
        match ns.tree.append id (.directory (.new name now)) (now + 1) with
        | some (_, tree) => (.ok (), { ns with tree })
        | none => (.error (.alreadyExists path.text), ns)
      | .ok _ => (.error (.permissionDenied ("cannot create directories inside a mount: " ++ path.text)), ns)
    | _, _ => (.ok (), ns)

/-- the missing directories along the names that are left, after those already walked -/
def createAlong (ext : External) (now : Time) (walked : List String) :
    List String → Namespace → Except FsError Unit × Namespace
  | [], ns => (.ok (), ns)
  | name :: rest, ns =>
    let here : AbsolutePath := ⟨ns.id, walked ++ [name]⟩
    match ns.tree.resolveOrMissing ext here with
    | .error e => (.error e, ns)
    | .ok (some (.directory _ _)) => createAlong ext now (walked ++ [name]) rest ns
    | .ok (some _) =>
      if rest = [] then (.error (.alreadyExists here.text), ns)
      else createAlong ext now (walked ++ [name]) rest ns
    | .ok none =>
      match createDirectory ext now here ns with
      | (.ok _, ns) | (.error (.alreadyExists _), ns) => createAlong ext (now + 2) (walked ++ [name]) rest ns
      | (.error e, ns) => (.error e, ns)

/-- a directory and all that are missing above it -/
def createDirectories (ext : External) (now : Time) (path : AbsolutePath) (ns : Namespace) :
    Except FsError Unit × Namespace :=
  match ns.check path with
  | .error e => (.error e, ns)
  | .ok _ => createAlong ext now [] path.names ns

/-- take out a directory without children -/
def delete (ext : External) (now : Time) (path : AbsolutePath) (ns : Namespace) : Except FsError Unit × Namespace :=
  match ns.check path with
  | .error e => (.error e, ns)
  | .ok _ =>
    if path.isRoot then (.error (.permissionDenied "cannot delete the namespace root"), ns)
    else match ns.tree.resolve ext path with
      | .error e => (.error e, ns)
      | .ok (.directory id _) =>
        match ns.tree.deleteIfEmpty id now with
        | some tree => (.ok (), { ns with tree })
        | none =>
          if ns.tree.edges id ≠ [] then (.error (.directoryNotEmpty path.text), ns)
          else (.error (.notFound path.text), ns)
      | .ok (.mount _ _) =>
        (.error (.permissionDenied ("cannot delete a mount, unmount it instead: " ++ path.text)), ns)
      | .ok (.real _ _) => (.error (.permissionDenied ("cannot delete mounted content: " ++ path.text)), ns)

/-- another name for a directory within its parent; a name that differs in case only is free -/
def rename (ext : External) (now : Time) (source target : AbsolutePath) (ns : Namespace) :
    Except FsError Unit × Namespace :=
  match ns.check source, ns.checkBelongs target with
  | .error e, _ => (.error e, ns)
  | .ok _, .error e => (.error e, ns)
  | .ok _, .ok _ =>
    match source.parent?, target.parent?, target.fileName? with
    | some sourceParent, some targetParent, some newName =>
      match ns.tree.resolve ext source with
      | .error e => (.error e, ns)
      | .ok (.mount _ _) => (.error (.permissionDenied ("cannot rename a mount: " ++ source.text)), ns)
      | .ok (.real _ _) => (.error (.permissionDenied ("cannot rename mounted content: " ++ source.text)), ns)
      | .ok (.directory id _) =>
        if !sourceParent.same targetParent then
          (.error (.invalidPath (target.text ++ " is not in the same directory as " ++ source.text)), ns)
        else match ns.tree.resolveOrMissing ext target with
          | .error e => (.error e, ns)
          | .ok existing =>
            if existing.isSome && existing.bind Place.nodeId? ≠ some id then
              (.error (.alreadyExists target.text), ns)
            else match ns.tree.rename id newName now with
              | some tree => (.ok (), { ns with tree })
              | none => (.ok (), ns)
    | _, _, _ => (.error (.invalidPath "cannot rename the namespace root"), ns)

/-! Mounting. -/

/-- a directory of a filesystem to be mounted at a path -/
structure MountRequest where
  source : ExternalPath
  at_ : AbsolutePath
  deriving DecidableEq, Repr

/-- a request whose source is rooted and whose filesystem is not the namespace it is mounted in -/
def MountRequest.new (fs : FsRef) (source : FsPath) (at_ : AbsolutePath) : Except FsError MountRequest :=
  if !source.isRooted then
    .error (.invalidPath ("mount source must be absolute (received: " ++ source.text ++ ")"))
  else if fs = .space at_.owner then
    .error (.crossNamespace ("cannot mount " ++ at_.owner.text ++ " inside itself"))
  else .ok ⟨⟨fs, source⟩, at_⟩

/-- put a mount in the place of what is at the mount point -/
def cover (now : Time) (request : MountRequest) (existing : NodeId) (name : String) (ns : Namespace) :
    Except FsError Unit × Namespace :=
  let record : MountRecord := ⟨ns.tree.nextId, request.at_, request.source⟩
  match ns.tree.replaceWith existing (.mount ⟨name, record, .at now, existing⟩) with
  | some (_, tree) => (.ok (), { ns with tree, mounts := ns.mounts ++ [record] })
  | none => (.error (.notFound request.at_.text), ns)

/-- mount a directory over a directory or a mount of the tree -/
def mount (ext : External) (now : Time) (request : MountRequest) (ns : Namespace) :
    Except FsError Unit × Namespace :=
  match ns.check request.at_ with
  | .error e => (.error e, ns)
  | .ok _ =>
    if request.at_.isRoot then (.error (.permissionDenied "cannot mount over the namespace root"), ns)
    else match (ext request.source.fs).getattr request.source.path with
      | .error e => (.error e, ns)
      | .ok attributes =>
        if attributes.kind ≠ .directory then (.error (.notADirectory request.source.path.text), ns)
        else match ns.tree.resolve ext request.at_ with
          | .error e => (.error e, ns)
          | .ok (.directory id dir) => ns.cover now request id dir.name
          | .ok (.mount id m) => ns.cover now request id m.name
          | .ok (.real _ _) =>
            (.error (.permissionDenied ("cannot mount inside an external filesystem: " ++ request.at_.text)), ns)

/-- take the mount at a path away and bring back what it shadowed -/
def unmount (ext : External) (path : AbsolutePath) (ns : Namespace) : Except FsError Unit × Namespace :=
  match ns.place ext path with
  | .error e => (.error e, ns)
  | .ok (.mount id m) =>
    match ns.tree.unmount id with
    | some tree => (.ok (), { ns with tree, mounts := ns.mounts.filter (·.serial ≠ m.record.serial) })
    | none => (.error (.notAMount path.text), ns)
  | .ok _ => (.error (.notAMount path.text), ns)

/-! Reading. -/

/-- the attributes of a directory or mount of the tree -/
def timesAttributes (times : NodeTimes) : Attributes :=
  ⟨0, .directory, times.modified, some times.accessed, some times.created⟩

/-- the names in a directory of the tree, in order -/
def listTree (t : Tree) (id : NodeId) : List Entry :=
  ((t.edges id).map fun edge => Entry.directory edge.name).mergeSort fun a b =>
    Text.compareNames a.name b.name != .gt

/-- the names in a directory -/
def listDirectory (ext : External) (ns : Namespace) (path : AbsolutePath) : Except FsError (List Entry) :=
  match ns.place ext path with
  | .error e => .error e
  | .ok (.directory id _) => .ok (listTree ns.tree id)
  | .ok (.mount _ m) => (ext m.record.source.fs).readdir m.record.source.path
  | .ok (.real _ place) => (ext place.fs).readdir place.path

/-- the path exists and allows these accesses; writing is never allowed -/
def checkAccess (ext : External) (ns : Namespace) (path : AbsolutePath) (modes : List AccessMode) :
    Except FsError Unit :=
  match ns.place ext path with
  | .error e => .error e
  | .ok _ => if AccessMode.write ∈ modes then .error .readOnly else .ok ()

/-- the attributes of what is at a path -/
def readAttributes (ext : External) (ns : Namespace) (path : AbsolutePath) : Except FsError Attributes :=
  match ns.place ext path with
  | .error e => .error e
  | .ok (.directory _ dir) => .ok (timesAttributes dir.times)
  | .ok (.mount _ m) => .ok (timesAttributes m.times)
  | .ok (.real _ place) => (ext place.fs).getattr place.path

end Namespace

end MountSpace

/-
A directory of the host shown as a filesystem, read-only. Every path is taken below the root of the view and resolved
physically before use; what lies outside the root by its physical path is refused, whichever links or double dots led
there. The root is made physical when the view is set up, and kept as given if it does not exist.
-/
import MountSpace.Filesystem.Host

namespace MountSpace

namespace HostEntry

/-- the kind of an object itself -/
def kind : HostEntry → FileKind
  | file _ _ => .file
  | directory _ => .directory
  | link _ _ => .symlink

/-- the attributes of an object; of its times the host tells only the last change -/
def attributes : HostEntry → Attributes
  | file data mtime => ⟨data.size, .file, mtime, none, none⟩
  | directory mtime => ⟨0, .directory, mtime, none, none⟩
  | link target mtime => ⟨target.bytes.length, .symlink, mtime, none, none⟩

end HostEntry

namespace Host

/-- the root of a view, made physical if it exists -/
def viewRoot (host : Host) (path : FsPath) : FsPath :=
  match host.canonical path with
  | .ok key => .ofNames key
  | .error _ => path

/-- the physical path a path of the view stands for; the root of the view stands for itself -/
def viewPath (host : Host) (root path : FsPath) : Except FsError FsPath :=
  let inner := path.withoutRoot
  if inner.bytes = [] then .ok root
  else match host.canonical (root.join inner) with
    | .error e => .error (.system e)
    | .ok key =>
      let physical := FsPath.ofNames key
      if physical.startsWith root then .ok physical
      else .error (.escapesRoot (physical.text ++ " is not under " ++ root.text))

/-- the object a path of the view stands for -/
def viewEntry (host : Host) (root path : FsPath) : Except FsError HostEntry :=
  match host.viewPath root path with
  | .error e => .error e
  | .ok physical =>
    match host.stat physical with
    | .error e => .error (.system e)
    | .ok entry => .ok entry

/-- the entry for a physical path in the listing of a directory; a link is listed as a link -/
def entryIn (directory : HostKey) : HostKey × HostEntry → Option Entry
  | (key, entry) =>
    match key.getLast? with
    | some name => if key.dropLast = directory then some ⟨Text.lossy name, entry.kind⟩ else none
    | none => none

/-- the names in a directory, in order -/
def list (host : Host) (directory : HostKey) : List Entry :=
  (host.entries.filterMap (entryIn directory)).mergeSort fun a b => decide (a.name ≤ b.name)

/-- the attributes of the object a path of the view stands for -/
def viewGetattr (host : Host) (root path : FsPath) : Except FsError Attributes :=
  (host.viewEntry root path).map HostEntry.attributes

/-- the names in the directory a path of the view stands for -/
def viewReaddir (host : Host) (root path : FsPath) : Except FsError (List Entry) :=
  match host.viewPath root path with
  | .error e => .error e
  | .ok physical =>
    match host.locate physical with
    | .error e => .error (.system e)
    | .ok key =>
      match host.get? key with
      | some (.directory _) => .ok (host.list key)
      | _ => .error (.notADirectory path.text)

/-- the bytes from an offset of the file a path of the view stands for -/
def viewRead (host : Host) (root path : FsPath) (offset size : Nat) : Except FsError ByteArray :=
  match host.viewEntry root path with
  | .error e => .error e
  | .ok (.file data _) =>
    if 1 <<< 63 ≤ offset then .error (.system .invalidArgument)
    else .ok (data.extract (min offset data.size) (min (offset + size) data.size))
  | .ok _ => .error (.isADirectory path.text)

/-- a directory of the host as a filesystem -/
def view (host : Host) (root : FsPath) : Filesystem :=
  ⟨host.viewGetattr root, host.viewReaddir root, host.viewRead root⟩

end Host

end MountSpace

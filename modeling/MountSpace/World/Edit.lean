/-
What can be done in the world: namespaces made and changed, volumes added and filled, directories mounted. The clock
runs on after every change, past each moment the change may have read.
-/
import MountSpace.World.Basic

namespace MountSpace

namespace World

/-- a new namespace under the next number -/
def createNamespace (w : World) (settings : Settings) : NamespaceId × World :=
  let id := w.namespaces.size + 1
  (id, { w with namespaces := w.namespaces.push (.new id settings w.clock) }.advance 1)

/-- a new volume -/
def addVolume (w : World) (volume : Volume) : FsRef × World :=
  (.volume w.volumes.size, { w with volumes := w.volumes.push volume })

/-- a view of a host directory as a new volume -/
def openDirectory (w : World) (root : FsPath) : FsRef × World := w.addVolume (.directory (w.host.viewRoot root))

/-- an operation that changes a namespace, for which it is given the answers of all filesystems and the clock -/
def change (w : World) (id : NamespaceId) (readings : Nat)
    (op : External → Time → Namespace → Except FsError Unit × Namespace) : Except FsError Unit × World :=
  match w.namespace? id with
  | none => (.error (.other "no such namespace"), w)
  | some ns =>
    let (answer, ns) := op w.external w.clock ns
    (answer, (w.setNamespace ns).advance readings)

/-- the clock readings that making directories along a path may take -/
def readingsAlong (path : AbsolutePath) : Nat := 2 * path.names.length

/-- one new directory of a namespace -/
def createDirectory (w : World) (id : NamespaceId) (path : AbsolutePath) : Except FsError Unit × World :=
  w.change id 2 fun ext now => Namespace.createDirectory ext now path

/-- a directory of a namespace and all that are missing above it -/
def createDirectories (w : World) (id : NamespaceId) (path : AbsolutePath) : Except FsError Unit × World :=
  w.change id (readingsAlong path) fun ext now => Namespace.createDirectories ext now path

/-- take out an empty directory of a namespace -/
def delete (w : World) (id : NamespaceId) (path : AbsolutePath) : Except FsError Unit × World :=
  w.change id 1 fun ext now => Namespace.delete ext now path

/-- another name for a directory of a namespace -/
def rename (w : World) (id : NamespaceId) (source target : AbsolutePath) : Except FsError Unit × World :=
  w.change id 1 fun ext now => Namespace.rename ext now source target

/-- mount what a request asks for -/
def mount (w : World) (id : NamespaceId) (request : Namespace.MountRequest) : Except FsError Unit × World :=
  w.change id 1 fun ext now => Namespace.mount ext now request

/-- take a mount of a namespace away -/
def unmount (w : World) (id : NamespaceId) (path : AbsolutePath) : Except FsError Unit × World :=
  w.change id 0 fun ext _ => Namespace.unmount ext path

/-- mount one directory of the settings, at a path made for it -/
def mountSetting (w : World) (id : NamespaceId) (setting : MountSetting) : Except FsError Unit × World :=
  match AbsolutePath.parse id setting.at_ with
  | .error e => (.error e, w)
  | .ok path =>
    match w.createDirectories id path with
    | (.error e, w) => (.error e, w)
    | (.ok _, w) =>
      let (fs, w) := w.openDirectory setting.source
      match Namespace.MountRequest.new fs .rootPath path with
      | .error e => (.error e, w)
      | .ok request => w.mount id request

/-- mount directories one after the other, up to the first that fails -/
def mountAll (id : NamespaceId) : List MountSetting → World → Except FsError Unit × World
  | [], w => (.ok (), w)
  | setting :: rest, w =>
    match w.mountSetting id setting with
    | (.error e, w) => (.error e, w)
    | (.ok _, w) => mountAll id rest w

/-- mount what the settings of a namespace list -/
def mountConfigured (w : World) (id : NamespaceId) : Except FsError Unit × World :=
  match w.namespace? id with
  | none => (.error (.other "no such namespace"), w)
  | some ns => mountAll id ns.settings.mounts w

/-! Volumes and the host, changed by their owners. -/

/-- the volume of a reference -/
def volume? (w : World) : FsRef → Option Volume
  | .volume n => w.volumes[n]?
  | .space _ => none

/-- a volume changed -/
def setVolume (w : World) (fs : FsRef) (volume : Volume) : World :=
  match fs with
  | .volume n => { w with volumes := w.volumes.setIfInBounds n volume }
  | .space _ => w

/-- a change to the store of a volume, at the present moment -/
def changeStore (w : World) (fs : FsRef) (op : Time → MemoryStore → Except FsError Unit × MemoryStore) :
    Except FsError Unit × World :=
  match w.volume? fs with
  | none => (.error (.other "no such volume"), w)
  | some volume =>
    match volume.store? with
    | none => (.error .readOnly, w)
    | some store =>
      let (answer, store) := op w.clock store
      (answer, (w.setVolume fs (volume.setStore store)).advance 1)

/-- a new empty volume in memory -/
def createMemory (w : World) : FsRef × World :=
  let (fs, w) := w.addVolume (.memory (.empty w.clock))
  (fs, w.advance 1)

/-- a new empty volume in memory with faults to come -/
def createFaulty (w : World) (maxRead : Option Nat) : FsRef × World :=
  let (fs, w) := w.addVolume (.faulty (.empty w.clock) { maxRead })
  (fs, w.advance 1)

/-- a change to the faults of a volume that has them -/
def changeFaults (w : World) (fs : FsRef) (f : Faults → Faults) : World :=
  match w.volume? fs with
  | some (.faulty store faults) => w.setVolume fs (.faulty store (f faults))
  | _ => w

/-- a change to the host at the present moment; one that fails leaves it as it is -/
def changeHost (w : World) (op : Host → Time → Except SystemError Host) : World :=
  match op w.host w.clock with
  | .ok host => { w with host }.advance 1
  | .error _ => w.advance 1

end World

end MountSpace

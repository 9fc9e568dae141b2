/-
Everything at one moment: the clock, the namespaces, the volumes they mount, the host, the registry of names and the
watch services with the time that has passed for them. Here mounted filesystems get their answers, also those that are
namespaces themselves; a question that is handed from namespace to namespace more often than the crossing limit is taken
to have no end.
-/
import MountSpace.Space.Channel
import MountSpace.Filesystem.Memory
import MountSpace.Filesystem.HostView
import MountSpace.Filesystem.Faulty
import MountSpace.Watch.Service

namespace MountSpace

/-- a filesystem that is not a namespace: in memory, a directory of the host, or in memory with faults -/
inductive Volume where
  | memory (store : MemoryStore)
  | directory (root : FsPath)
  | faulty (store : MemoryStore) (faults : Faults)

namespace Volume

/-- what an owner can change of a volume: its store -/
def store? : Volume → Option MemoryStore
  | memory store => some store
  | faulty store _ => some store
  | directory _ => none

/-- the volume with another store -/
def setStore (store : MemoryStore) : Volume → Volume
  | memory _ => memory store
  | faulty _ faults => faulty store faults
  | directory root => directory root

/-- the answers of a volume -/
def filesystem (host : Host) : Volume → Filesystem
  | memory store => store.filesystem
  | directory root => host.view root
  | faulty store faults => store.filesystem.withFaults faults

end Volume

/-- the state of everything -/
structure World where
  clock : Time
  host : Host
  namespaces : Array Namespace
  volumes : Array Volume
  /-- the namespace registered under each name -/
  registry : Table String NamespaceId
  services : Array WatchService
  /-- the milliseconds that have passed for the watch services -/
  elapsed : Nat

namespace World

/-- nothing but an empty host -/
def new (clock : Time) : World := ⟨clock, .empty clock, #[], #[], [], #[], 0⟩

/-- a namespace by its number -/
def namespace? (w : World) (id : NamespaceId) : Option Namespace :=
  if id = 0 then none else w.namespaces[id - 1]?

/-- a namespace changed -/
def setNamespace (w : World) (ns : Namespace) : World :=
  { w with namespaces := w.namespaces.setIfInBounds (ns.id - 1) ns }

/-- the clock moved on by some readings -/
def advance (w : World) (readings : Nat) : World := { w with clock := w.clock + readings }

/-- a filesystem that answers every question with one error -/
def failing (e : FsError) : Filesystem := ⟨fun _ => .error e, fun _ => .error e, fun _ _ _ => .error e⟩

/-- the answers of a volume by its number -/
def volumeAnswers (w : World) (n : Nat) : Filesystem :=
  match w.volumes[n]? with
  | some volume => volume.filesystem w.host
  | none => failing (.other "no such volume")

/-- the answers of all filesystems, where a question may cross from namespace to namespace so many times -/
def answers (w : World) : Nat → External
  | 0 => fun
    | .volume n => w.volumeAnswers n
    | .space _ => failing .endlessMounts
  | left + 1 => fun
    | .volume n => w.volumeAnswers n
    | .space id =>
      match w.namespace? id with
      | some ns => ns.filesystem (w.answers left)
      | none => failing (.other "no such namespace")

/-- the crossings allowed to one question: into every namespace once, and many more -/
def crossingLimit (w : World) : Nat := w.namespaces.size + 1000

/-- the answers of all filesystems now -/
def external (w : World) : External := w.answers w.crossingLimit

end World

end MountSpace

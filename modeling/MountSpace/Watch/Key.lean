/-
One watched path. A key remembers the state it last saw, absent or present with a modification time, and turns each
transition into an event, if its kind is among those it is interested in. After an event it is signalled and looks no
more until it is reset.
-/
import MountSpace.Path.Basic
import MountSpace.Attributes

namespace MountSpace

/-- a kind of change -/
inductive EventKind where
  | created | modified | deleted
  deriving DecidableEq, Repr

namespace EventKind

/-- all kinds, in the order they are listed -/
def all : List EventKind := [created, modified, deleted]

/-- the kind by name -/
def name : EventKind → String
  | created => "created"
  | modified => "modified"
  | deleted => "deleted"

/-- the kind with a name, in any ASCII case -/
def ofName? : String → Option EventKind := byName? name all

end EventKind

/-- one observed change of a path -/
structure WatchEvent where
  kind : EventKind
  path : AbsolutePath
  count : Nat
  deriving DecidableEq, Repr

/-- the kind of change between two observed states -/
def transition : Option Time → Option Time → Option EventKind
  | none, some _ => some .created
  | some _, none => some .deleted
  | some a, some b => if a ≠ b then some .modified else none
  | none, none => none

/-- a registration of a path with a watch service -/
structure WatchKey where
  path : AbsolutePath
  interest : List EventKind
  lastSeen : Option Time
  /-- the events of the last signal that nobody has read -/
  outbox : List WatchEvent
  signalled : Bool
  valid : Bool
  deriving DecidableEq, Repr

namespace WatchKey

/-- a key that has seen a state -/
def new (path : AbsolutePath) (interest : List EventKind) (seen : Option Time) : WatchKey :=
  ⟨path, interest, seen, [], false, true⟩

/-- the events of the step from the last state to this one -/
def events (key : WatchKey) (seen : Option Time) : List WatchEvent :=
  match transition key.lastSeen seen with
  | some kind => if kind ∈ key.interest then [⟨kind, key.path, 1⟩] else []
  | none => []

/-- the key with a state remembered -/
def see (key : WatchKey) (seen : Option Time) : WatchKey := { key with lastSeen := seen }

/-- the key signalled with events -/
def signal (key : WatchKey) (events : List WatchEvent) : WatchKey := { key with outbox := events, signalled := true }

/-- the key looking again -/
def resume (key : WatchKey) : WatchKey := { key with outbox := [], signalled := false }

/-- the key given up -/
def invalidate (key : WatchKey) : WatchKey := { key with valid := false }

/-- the pending events taken out -/
def takeEvents (key : WatchKey) : List WatchEvent × WatchKey := (key.outbox, { key with outbox := [] })

end WatchKey

end MountSpace

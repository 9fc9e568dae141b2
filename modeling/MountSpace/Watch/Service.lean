/-
A watch service: the keys registered with it by number, the live ones, the workers that look at paths, and the queue of
keys that are ready to be taken. A worker looks at one key, first when it starts and then at fixed intervals; when the
key is signalled the worker stops, the key leaves the live table and joins the queue. Resetting a key makes it live
again and starts a worker for it.

A registration begins and comes to its end in two steps, because it waits for the state of its path in between. Whether
the service is closed is asked as it begins, and not again.
-/
import MountSpace.Watch.Key

namespace MountSpace

/-- the number of a key within its service -/
abbrev KeyId := Nat

/-- a worker: the key whose path it looks at, and the moment of its next look, in milliseconds -/
structure Worker where
  key : KeyId
  due : Nat
  deriving DecidableEq, Repr

/-- the first look of a worker after a moment -/
def Worker.dueAfter (worker : Worker) (interval stop : Nat) : Nat :=
  if stop < worker.due then worker.due else worker.due + ((stop - worker.due) / interval + 1) * interval

/-- what is asked of a service: to watch a path for some kinds of change -/
structure WatchRequest where
  path : AbsolutePath
  interest : List EventKind
  deriving DecidableEq, Repr

/-- a watch service of one namespace -/
structure WatchService where
  space : NamespaceId
  /-- the time between two looks, in milliseconds -/
  interval : Nat
  keys : Array WatchKey
  live : List KeyId
  /-- the workers in the order they started -/
  workers : List Worker
  ready : List KeyId
  /-- the registrations that have begun and wait for the states of their paths -/
  asked : List WatchRequest
  isClosed : Bool
  deriving DecidableEq, Repr

namespace WatchService

/-- an open service without keys -/
def new (space : NamespaceId) (interval : Nat) : WatchService := ⟨space, interval, #[], [], [], [], [], false⟩

/-- a key of the service -/
def key? (s : WatchService) (k : KeyId) : Option WatchKey := s.keys[k]?

/-- one key changed in place -/
def update (s : WatchService) (k : KeyId) (f : WatchKey → WatchKey) : WatchService :=
  { s with keys := s.keys.modify k f }

/-- a key made live, with a worker that looks from a moment on -/
def start (s : WatchService) (k : KeyId) (now : Nat) : WatchService :=
  { s with live := s.live ++ [k], workers := s.workers ++ [⟨k, now⟩] }

/-- a new key, live and with a worker -/
def register (s : WatchService) (path : AbsolutePath) (interest : List EventKind) (seen : Option Time) (now : Nat) :
    KeyId × WatchService :=
  (s.keys.size, { s with keys := s.keys.push (.new path interest seen) }.start s.keys.size now)

/-- a registration begins, unless the service is closed -/
def ask (s : WatchService) (request : WatchRequest) : WatchService :=
  if s.isClosed then s else { s with asked := request :: s.asked }

/-- a registration that has begun waits no longer -/
def withdraw (s : WatchService) (request : WatchRequest) : WatchService :=
  { s with asked := s.asked.erase request }

/-- a registration that has begun learns the state of its path, and its key is made, whether the service is closed by
then or not -/
def enroll (s : WatchService) (request : WatchRequest) (seen : Option Time) (now : Nat) : KeyId × WatchService :=
  (s.withdraw request).register request.path request.interest seen now

/-- the worker of a key stops -/
def retire (s : WatchService) (k : KeyId) : WatchService := { s with workers := s.workers.filter (·.key ≠ k) }

/-- a key gets events: out of the live table, into the queue -/
def signal (s : WatchService) (k : KeyId) (events : List WatchEvent) : WatchService :=
  let s := s.update k (·.signal events)
  { s with live := s.live.filter (· ≠ k), ready := s.ready ++ [k] }

/-- the worker of a key has looked at its path and found this state -/
def observe (s : WatchService) (k : KeyId) (seen : Option Time) : WatchService :=
  match s.key? k with
  | none => s
  | some key =>
    if !key.valid || s.isClosed then s.retire k
    else
      let looked := s.update k (·.see seen)
      if key.events seen = [] then looked else (looked.signal k (key.events seen)).retire k

/-- the workers that look by a moment, the earliest first -/
def dueBy (s : WatchService) (stop : Nat) : List Worker :=
  (s.workers.filter fun worker => decide (worker.due ≤ stop)).mergeSort fun a b => decide (a.due ≤ b.due)

/-- every look by a moment done: each worker is due for its next one -/
def advance (s : WatchService) (stop : Nat) : WatchService :=
  { s with workers := s.workers.map fun worker => { worker with due := worker.dueAfter s.interval stop } }

/-- the next key in the queue; none once closed -/
def poll (s : WatchService) : Option KeyId × WatchService :=
  if s.isClosed then (none, s)
  else match s.ready with
    | [] => (none, s)
    | k :: rest => (some k, { s with ready := rest })

/-- the next key in the queue, an error once closed, and nothing while none is there -/
def take (s : WatchService) : Except FsError (Option KeyId) × WatchService :=
  if s.isClosed then (.error .closed, s)
  else let (next, s) := s.poll
    (.ok next, s)

/-- let a signalled key look again, unless it was given up or the service is closed -/
def reset (s : WatchService) (k : KeyId) (now : Nat) : Bool × WatchService :=
  match s.key? k with
  | none => (false, s)
  | some key =>
    if !key.valid || s.isClosed || !key.signalled then (false, s)
    else (true, (s.update k (·.resume)).start k now)

/-- give a key up; what is queued stays queued -/
def cancel (s : WatchService) (k : KeyId) : WatchService :=
  match s.key? k with
  | none => s
  | some key =>
    if !key.valid then s
    else
      let s := s.update k (·.invalidate)
      { s with live := s.live.filter (· ≠ k) }

/-- the pending events of a key, taken out -/
def takeEvents (s : WatchService) (k : KeyId) : List WatchEvent × WatchService :=
  match s.key? k with
  | none => ([], s)
  | some key => (key.outbox, s.update k fun key => key.takeEvents.2)

/-- close the service and give up every live key -/
def close (s : WatchService) : WatchService :=
  if s.isClosed then s
  else
    let s := s.live.foldl (fun s k => s.update k (·.invalidate)) s
    { s with live := [], isClosed := true }

end WatchService

end MountSpace

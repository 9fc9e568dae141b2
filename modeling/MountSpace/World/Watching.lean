/-
Watching paths. Namespaces tell nobody about changes, so each registered key has a worker that looks at its path again
and again. Time passes for the workers only in `tick` and while somebody waits for a key, and nothing else changes
meanwhile: of the looks a worker takes in such a span the first finds all there is to find.
-/
import MountSpace.World.Registry

namespace MountSpace

namespace World

/-- a service without the runtime it needs -/
def noRuntime : FsError := .other "watch service requires a tokio runtime"

/-- a new watch service on an open namespace -/
def watch (w : World) (id : NamespaceId) : Except FsError (Nat × World) :=
  match w.namespace? id with
  | none => .error (.other "no such namespace")
  | some ns =>
    if !ns.isOpen then .error .closed
    else .ok (w.services.size, { w with services := w.services.push (.new id ns.settings.pollInterval) })

/-- the modification time of a path, absent if it cannot be read; an error once the namespace is closed -/
def look (w : World) (id : NamespaceId) (path : AbsolutePath) : Except FsError (Option Time) :=
  match w.namespace? id with
  | none => .error .closed
  | some ns =>
    match ns.readAttributes w.external path with
    | .ok attributes => .ok (some attributes.mtime)
    | .error _ => if ns.isOpen then .ok none else .error .closed

/-- a service changed -/
def setService (w : World) (n : Nat) (s : WatchService) : World :=
  { w with services := w.services.setIfInBounds n s }

/-- a registration begins: the service is open and the path is one of its namespace, whose state is asked for then -/
def ask (w : World) (n : Nat) (request : WatchRequest) : Except FsError NamespaceId × World :=
  match w.services[n]? with
  | none => (.error .closed, w)
  | some s =>
    if s.isClosed then (.error .closed, w)
    else match w.namespace? s.space with
      | none => (.error .closed, w)
      | some ns =>
        match ns.checkBelongs request.path with
        | .error e => (.error e, w)
        | .ok _ => (.ok s.space, w.setService n (s.ask request))

/-- a registration that has begun comes to its end with what was found at its path -/
def enroll (w : World) (n : Nat) (request : WatchRequest) (found : Except FsError (Option Time)) :
    Except FsError KeyId × World :=
  match w.services[n]? with
  | none => (.error .closed, w)
  | some s =>
    match found with
    | .error e => (.error e, w.setService n (s.withdraw request))
    | .ok seen =>
      let (k, s) := s.enroll request seen w.elapsed
      (.ok k, w.setService n s)

/-- watch a path for changes from its present state on; nothing else happens while its state is asked for -/
def register (w : World) (n : Nat) (path : AbsolutePath) (interest : List EventKind) :
    Except FsError KeyId × World :=
  let request : WatchRequest := ⟨path, interest⟩
  match w.ask n request with
  | (.error e, w) => (.error e, w)
  | (.ok space, w) => w.enroll n request (w.look space path)

/-- let a signalled key look again -/
def reset (w : World) (n : Nat) (k : KeyId) : Bool × World :=
  match w.services[n]? with
  | none => (false, w)
  | some s =>
    let (did, s) := s.reset k w.elapsed
    (did, w.setService n s)

/-- a worker of a service looks at its key -/
def runWorker (w : World) (s : WatchService) (k : KeyId) : WatchService :=
  match s.key? k with
  | none => s
  | some key =>
    match w.look s.space key.path with
    | .ok seen => s.observe k seen
    | .error _ => s.retire k

/-- the workers of a service take their looks up to a moment -/
def runWorkers (w : World) (stop : Nat) (s : WatchService) : WatchService :=
  ((s.dueBy stop).foldl (fun s worker => w.runWorker s worker.key) s).advance stop

/-- time passes up to a moment, and every worker takes its looks -/
def runUntil (w : World) (stop : Nat) : World :=
  { w with services := w.services.map (w.runWorkers stop), elapsed := stop }

/-- the longest time between two looks of a worker -/
def longestInterval (w : World) : Nat := (w.services.map WatchService.interval).foldl max 0

/-- time passes until every worker of every service has looked -/
def tick (w : World) : World := w.runUntil (w.elapsed + w.longestInterval)

/-- the moment of the first look before a limit by which a key of a service is signalled -/
def nextSignal (w : World) (s : WatchService) (limit : Nat) : Option Nat :=
  let telling := s.workers.filter fun worker =>
    decide (worker.due < limit) && decide ((w.runWorker s worker.key).ready ≠ s.ready)
  (telling.map Worker.due).min?

/-- the intervals that somebody waits for a key -/
def patience : Nat := 4

/-- time passes until a key of a service is signalled, or for as long as somebody waits for one -/
def waitForSignal (w : World) (s : WatchService) : World :=
  let limit := w.elapsed + patience * s.interval
  match w.nextSignal s limit with
  | some moment => w.runUntil moment
  | none => { w.runUntil (limit - 1) with elapsed := limit }

/-- wait for a key and take it, if one comes in time; a key that is ready already needs no waiting -/
def awaitKey (w : World) (n : Nat) : Except FsError (Option KeyId) × World :=
  match w.services[n]? with
  | none => (.error .closed, w)
  | some s =>
    let w := if s.isClosed || s.ready ≠ [] then w else w.waitForSignal s
    let (answer, s) := ((w.services[n]?).getD s).take
    (answer, w.setService n s)

/-- close a service while somebody waits for a key: one that is ready goes to him, and no other; the looks that are due
at this moment are still taken -/
def closeAwaited (w : World) (n : Nat) : Except FsError KeyId × World :=
  match w.services[n]? with
  | none => (.error .closed, w)
  | some s =>
    let (answer, s) := s.take
    let w := (w.setService n s).runUntil w.elapsed
    let w := { w with services := w.services.modify n WatchService.close }
    match answer with
    | .ok (some k) => (.ok k, w)
    | _ => (.error .closed, w)

end World

end MountSpace

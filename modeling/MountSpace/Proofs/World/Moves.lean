/-
Runs of the world. What happens to the world is a sequence of moves: an operation of a namespace, a namespace made or
closed, a request to a watch service or to one of its keys, a look of one of its workers. What the owners of volumes and
of the host do between two moves is free, and so is the time that passes meanwhile. The looks of workers come in any
order, and they take time: a look may have its answer at once, or a worker that began to look has its answer later. So
does a registration, which is one move or two.

For one service a move is a beat or nothing (`beat?`), and for one namespace an event or nothing (`event?`). So what
holds in every run of a service, or of a namespace, holds of each of them in every run of the world.

- `services_after`, `namespaces_after`: a move, seen by one service and by one namespace;
- `arises`: the moves from which a service gets a beat;
- `register_cases`: a registration that nothing comes between is one act.
-/
import MountSpace.Proofs.Space.Times
import MountSpace.Proofs.Watch.Looks
import MountSpace.Proofs.World.Configured
import MountSpace.World.Watching

namespace MountSpace

open WatchService

namespace Namespace

/-! ## What no operation of a namespace changes -/

section Shell

variable (ns : Namespace) (ext : External) (now : Time)

/-- a namespace with another tree and other mounts -/
def SameShell (next : Namespace) : Prop := ∃ tree mounts, next = { ns with tree, mounts }

variable {ns}

theorem SameShell.refl (ns : Namespace) : ns.SameShell ns := ⟨ns.tree, ns.mounts, rfl⟩

theorem SameShell.trans {mid last : Namespace} (h : ns.SameShell mid) (hl : mid.SameShell last) :
    ns.SameShell last := by
  obtain ⟨tree, mounts, rfl⟩ := h
  obtain ⟨later, left, rfl⟩ := hl
  exact ⟨later, left, rfl⟩

theorem SameShell.id {next : Namespace} (h : ns.SameShell next) : next.id = ns.id := by
  obtain ⟨tree, mounts, rfl⟩ := h
  rfl

theorem SameShell.isOpen {next : Namespace} (h : ns.SameShell next) : next.isOpen = ns.isOpen := by
  obtain ⟨tree, mounts, rfl⟩ := h
  rfl

theorem createDirectory_shell (ns : Namespace) (path : AbsolutePath) :
    ns.SameShell (ns.createDirectory ext now path).2 := by
  unfold createDirectory
  repeat' split
  all_goals exact ⟨_, _, rfl⟩

theorem createAlong_shell (ns : Namespace) (now : Time) (walked names : List String) :
    ns.SameShell (createAlong ext now walked names ns).2 := by
  induction names generalizing ns now walked with
  | nil => exact .refl ns
  | cons name rest ih =>
    have made := ns.createDirectory_shell ext now ⟨ns.id, walked ++ [name]⟩
    rw [createAlong]
    split
    · exact .refl ns
    · exact ih ns now _
    · split
      · exact .refl ns
      · exact ih ns now _
    · split
      · next heq => exact (heq ▸ made).trans (ih _ _ _)
      · next heq => exact (heq ▸ made).trans (ih _ _ _)
      · next heq => exact heq ▸ made

theorem cover_shell (ns : Namespace) (request : MountRequest) (existing : NodeId) (name : String) :
    ns.SameShell (ns.cover now request existing name).2 := by
  unfold cover
  dsimp only
  split
  · exact ⟨_, _, rfl⟩
  · exact .refl ns

/-- an operation changes the tree and the mounts of a namespace and nothing else -/
theorem turn_shell (ns : Namespace) (turn : Turn) : ns.SameShell (ns.turn turn).2 := by
  obtain ⟨ext, now, operation⟩ := turn
  cases operation with
  | createDirectory path => exact ns.createDirectory_shell ext now path.1
  | createDirectories path =>
    show ns.SameShell (ns.createDirectories ext now path.1).2
    unfold createDirectories
    split
    · exact .refl ns
    · exact ns.createAlong_shell ext now [] path.1.names
  | delete path =>
    show ns.SameShell (ns.delete ext now path.1).2
    unfold delete
    repeat' split
    all_goals exact ⟨_, _, rfl⟩
  | rename source target =>
    show ns.SameShell (ns.rename ext now source.1 target.1).2
    unfold rename
    repeat' split
    all_goals exact ⟨_, _, rfl⟩
  | mount source at_ =>
    show ns.SameShell (ns.mount ext now ⟨source, at_.1⟩).2
    unfold mount
    repeat' split
    all_goals first | exact .refl ns | exact ns.cover_shell now _ _ _
  | unmount path =>
    show ns.SameShell (ns.unmount ext path.1).2
    unfold unmount
    repeat' split
    all_goals exact ⟨_, _, rfl⟩
  | listDirectory path => exact .refl ns
  | resolve path => exact .refl ns

end Shell

end Namespace

namespace World

/-! ## Moves -/

/-- what can happen to the world -/
inductive Move where
  /-- the owners of volumes and of the host do what they like, and the clock runs on -/
  | outside (host : Host) (volumes : Array Volume) (readings : Nat)
  | createNamespace (settings : Settings)
  | registerNamespace (settings : Settings)
  | closeNamespace (id : NamespaceId)
  | unregister (name : String)
  | operate (id : NamespaceId) (operation : Operation)
  /-- a watch service is made -/
  | watch (id : NamespaceId)
  /-- a registration, with the state of its path learned at once -/
  | register (n : Nat) (path : AbsolutePath) (interest : List EventKind)
  /-- a registration begins -/
  | ask (n : Nat) (request : WatchRequest)
  /-- a registration that began before learns the state of its path -/
  | enroll (n : Nat) (request : WatchRequest) (seen : Option Time)
  /-- a registration that began before comes to nothing -/
  | withdraw (n : Nat) (request : WatchRequest)
  /-- a worker looks at its key and has its answer at once -/
  | look (n : Nat) (k : KeyId)
  /-- a worker has the answer to a look that it began before -/
  | answer (n : Nat) (k : KeyId) (seen : Option Time)
  /-- the workers of a service are due for their next looks -/
  | pass (n : Nat) (stop : Nat)
  | poll (n : Nat)
  | take (n : Nat)
  /-- the pending events of a key are taken out -/
  | read (n : Nat) (k : KeyId)
  | reset (n : Nat) (k : KeyId)
  | cancel (n : Nat) (k : KeyId)
  /-- a service is closed by its owner, or dropped -/
  | close (n : Nat)
  /-- time passes for the watch services -/
  | elapse (moment : Nat)

/-- one service changed -/
def onService (w : World) (n : Nat) (f : WatchService → WatchService) : World :=
  { w with services := w.services.modify n f }

/-- the world after an operation of a namespace -/
def operate (w : World) (id : NamespaceId) : Operation → World
  | .createDirectory path => (w.createDirectory id path.1).2
  | .createDirectories path => (w.createDirectories id path.1).2
  | .delete path => (w.delete id path.1).2
  | .rename source target => (w.rename id source.1 target.1).2
  | .mount source at_ => (w.mount id ⟨source, at_.1⟩).2
  | .unmount path => (w.unmount id path.1).2
  | .listDirectory _ | .resolve _ => w

/-- the world after a move; a key without a worker is not looked at -/
def after (w : World) : Move → World
  | .outside host volumes readings => { w with host, volumes }.advance readings
  | .createNamespace settings => (w.createNamespace settings).2
  | .registerNamespace settings => (w.registerNamespace settings).2
  | .closeNamespace id => w.closeNamespace id
  | .unregister name => (w.unregister name).2
  | .operate id operation => w.operate id operation
  | .watch id =>
    match w.watch id with
    | .ok (_, next) => next
    | .error _ => w
  | .register n path interest => (w.register n path interest).2
  | .ask n request => (w.ask n request).2
  | .enroll n request seen => w.onService n (·.beat (.enroll request seen w.elapsed))
  | .withdraw n request => w.onService n (·.withdraw request)
  | .look n k => w.onService n fun s => if s.Working k then w.runWorker s k else s
  | .answer n k seen => w.onService n (·.beat (.answer k seen))
  | .pass n stop => w.onService n (·.advance stop)
  | .poll n => w.onService n fun s => s.poll.2
  | .take n => w.onService n fun s => s.take.2
  | .read n k => w.onService n fun s => (s.takeEvents k).2
  | .reset n k => (w.reset n k).2
  | .cancel n k => w.onService n (·.cancel k)
  | .close n => w.onService n WatchService.close
  | .elapse moment => { w with elapsed := moment }

/-- the world after some moves -/
def run (w : World) (moves : List Move) : World := moves.foldl after w

@[simp] theorem run_nil (w : World) : w.run [] = w := rfl

theorem run_append (w : World) (before later : List Move) : w.run (before ++ later) = (w.run before).run later :=
  List.foldl_append

/-! ## A move seen by one service -/

/-- a namespace is there and open -/
def IsOpen (w : World) (id : NamespaceId) : Prop := ∃ ns, w.namespace? id = some ns ∧ ns.isOpen = true

instance (w : World) (id : NamespaceId) : Decidable (w.IsOpen id) :=
  decidable_of_iff ((w.namespace? id).any Namespace.isOpen = true) (Option.any_eq_true _ _)

/-- the act that the look of a worker is -/
def lookAct (w : World) (path : AbsolutePath) (id : NamespaceId) (k : KeyId) : Act :=
  match w.look id path with
  | .ok seen => .look k seen
  | .error _ => .quit k

/-- the beginning of a registration, if the path is one of the namespace -/
def askBeat? (w : World) (id : NamespaceId) (request : WatchRequest) : Option Beat :=
  (w.namespace? id).bind fun ns =>
    match ns.checkBelongs request.path with
    | .ok _ => some (.ask request)
    | .error _ => none

/-- the act that a registration is, if it comes to anything -/
def registerAct? (w : World) (id : NamespaceId) (path : AbsolutePath) (interest : List EventKind) : Option Act :=
  (w.askBeat? id ⟨path, interest⟩).bind fun _ =>
    (w.look id path).toOption.map fun seen => .register path interest seen w.elapsed

/-- what a move is to a service -/
def beat? (w : World) (n : Nat) (s : WatchService) : Move → Option Beat
  | .closeNamespace id => if s.space = id ∧ w.IsOpen id then some (.act .close) else none
  | .unregister name =>
    if w.registry.lookup name = some s.space ∧ w.IsOpen s.space then some (.act .close) else none
  | .register m path interest => if m = n then (w.registerAct? s.space path interest).map .act else none
  | .ask m request => if m = n then w.askBeat? s.space request else none
  | .enroll m request seen => if m = n then some (.enroll request seen w.elapsed) else none
  | .withdraw m request => if m = n then some (.withdraw request) else none
  | .look m k =>
    if m = n ∧ s.Working k then (s.key? k).map fun key => .act (w.lookAct key.path s.space k) else none
  | .answer m k seen => if m = n then some (.answer k seen) else none
  | .pass m stop => if m = n then some (.act (.pass stop)) else none
  | .poll m => if m = n then some (.act .poll) else none
  | .take m => if m = n then some (.act .take) else none
  | .read m k => if m = n then some (.act (.read k)) else none
  | .reset m k => if m = n then some (.act (.reset k w.elapsed)) else none
  | .cancel m k => if m = n then some (.act (.cancel k)) else none
  | .close m => if m = n then some (.act .close) else none
  | _ => none

/-- the moves from which a service gets a beat, and the beat -/
inductive Arises (w : World) (n : Nat) (s : WatchService) : Move → Beat → Prop where
  | closeNamespace (hosted : w.IsOpen s.space) : Arises w n s (.closeNamespace s.space) (.act .close)
  | unregister {name : String} (named : w.registry.lookup name = some s.space) (hosted : w.IsOpen s.space) :
      Arises w n s (.unregister name) (.act .close)
  | register {path : AbsolutePath} {interest : List EventKind} {seen : Option Time}
      (accepted : w.registerAct? s.space path interest = some (.register path interest seen w.elapsed)) :
      Arises w n s (.register n path interest) (.act (.register path interest seen w.elapsed))
  | ask {request : WatchRequest} (accepted : w.askBeat? s.space request = some (.ask request)) :
      Arises w n s (.ask n request) (.ask request)
  | enroll (request : WatchRequest) (seen : Option Time) :
      Arises w n s (.enroll n request seen) (.enroll request seen w.elapsed)
  | withdraw (request : WatchRequest) : Arises w n s (.withdraw n request) (.withdraw request)
  | look {k : KeyId} {key : WatchKey} {seen : Option Time} (working : s.Working k) (known : s.key? k = some key)
      (found : w.look s.space key.path = .ok seen) : Arises w n s (.look n k) (.act (.look k seen))
  /-- the worker is refused the answer and stops -/
  | quit {k : KeyId} {key : WatchKey} {e : FsError} (working : s.Working k) (known : s.key? k = some key)
      (refused : w.look s.space key.path = .error e) : Arises w n s (.look n k) (.act (.quit k))
  | answer (k : KeyId) (seen : Option Time) : Arises w n s (.answer n k seen) (.answer k seen)
  | pass (stop : Nat) : Arises w n s (.pass n stop) (.act (.pass stop))
  | poll : Arises w n s (.poll n) (.act .poll)
  | take : Arises w n s (.take n) (.act .take)
  | read (k : KeyId) : Arises w n s (.read n k) (.act (.read k))
  | reset (k : KeyId) : Arises w n s (.reset n k) (.act (.reset k w.elapsed))
  | cancel (k : KeyId) : Arises w n s (.cancel n k) (.act (.cancel k))
  | close : Arises w n s (.close n) (.act .close)

/-- a new service stands on an open namespace and has no keys -/
theorem watch_eq_ok {w next : World} {id : NamespaceId} {n : Nat} (h : w.watch id = .ok (n, next)) :
    ∃ ns, w.namespace? id = some ns ∧ ns.isOpen = true ∧ n = w.services.size ∧
      next = { w with services := w.services.push (.new id ns.settings.pollInterval) } := by
  unfold watch at h
  split at h
  · cases h
  · next ns hns =>
    split at h
    · cases h
    · next hopen =>
      cases h
      exact ⟨ns, hns, by simpa using hopen, rfl, rfl⟩

/-- the look of a worker is an act -/
theorem runWorker_eq {s : WatchService} {k : KeyId} (hw : s.Working k) (w : World) :
    w.runWorker s k = s.play ((s.key? k).map fun key => .act (w.lookAct key.path s.space k)).toList := by
  rw [runWorker]
  cases hk : s.key? k with
  | none => rfl
  | some key =>
    simp only [lookAct, Option.map_some]
    cases w.look s.space key.path with
    | error e => rfl
    | ok seen => exact (if_pos hw).symm

theorem askBeat?_eq_some {w : World} {id : NamespaceId} {request : WatchRequest} {b : Beat}
    (h : w.askBeat? id request = some b) :
    (∃ ns, w.namespace? id = some ns ∧ request.path.owner = ns.id) ∧ b = .ask request := by
  obtain ⟨ns, hns, hb⟩ := Option.bind_eq_some_iff.1 h
  cases hc : ns.checkBelongs request.path with
  | error e =>
    rw [hc] at hb
    cases hb
  | ok _ =>
    rw [hc] at hb
    cases hb
    exact ⟨⟨ns, hns, Namespace.checkBelongs_eq_ok.1 hc⟩, rfl⟩

theorem registerAct?_eq_some {w : World} {id : NamespaceId} {path : AbsolutePath} {interest : List EventKind} {act : Act}
    (h : w.registerAct? id path interest = some act) : (∃ ns, w.namespace? id = some ns ∧ path.owner = ns.id) ∧
      ∃ seen, w.look id path = .ok seen ∧ act = .register path interest seen w.elapsed := by
  obtain ⟨b, hb, ha⟩ := Option.bind_eq_some_iff.1 h
  obtain ⟨seen, hseen, rfl⟩ := Option.map_eq_some_iff.1 ha
  refine ⟨(askBeat?_eq_some hb).1, seen, ?_, rfl⟩
  cases hl : w.look id path with
  | error e =>
    rw [hl] at hseen
    cases hseen
  | ok found =>
    rw [hl] at hseen
    exact congrArg _ (Option.some.inj hseen)

/-- **A beat of a service arises from one of these moves.** -/
theorem arises {w : World} {n : Nat} {s : WatchService} {m : Move} {b : Beat} (h : w.beat? n s m = some b) :
    w.Arises n s m b := by
  have asked {i : Nat} {other : Beat} (move : Nat → Move) (hi : (if i = n then some other else none) = some b)
      (own : w.Arises n s (move n) other) : w.Arises n s (move i) b := by
    split at hi
    · next heq =>
      cases hi
      exact heq ▸ own
    · cases hi
  cases m with
  | closeNamespace id =>
    rw [beat?] at h
    split at h
    · next hid =>
      cases h
      exact hid.1 ▸ .closeNamespace (hid.1 ▸ hid.2)
    · cases h
  | unregister name =>
    rw [beat?] at h
    split at h
    · next hname =>
      cases h
      exact .unregister hname.1 hname.2
    · cases h
  | register i path interest =>
    rw [beat?] at h
    split at h
    · next hi =>
      obtain ⟨act, hact, rfl⟩ := Option.map_eq_some_iff.1 h
      obtain ⟨-, seen, -, rfl⟩ := registerAct?_eq_some hact
      exact hi ▸ .register hact
    · cases h
  | ask i request =>
    rw [beat?] at h
    split at h
    · next hi =>
      obtain ⟨-, rfl⟩ := askBeat?_eq_some h
      exact hi ▸ .ask h
    · cases h
  | enroll i request seen => exact asked (.enroll · request seen) h (.enroll request seen)
  | withdraw i request => exact asked (.withdraw · request) h (.withdraw request)
  | look i k =>
    rw [beat?] at h
    split at h
    · next hi =>
      obtain ⟨rfl, working⟩ := hi
      obtain ⟨key, hk, rfl⟩ := Option.map_eq_some_iff.1 h
      rw [lookAct]
      split
      · next found => exact .look working hk found
      · next refused => exact .quit working hk refused
    · cases h
  | answer i k seen => exact asked (.answer · k seen) h (.answer k seen)
  | pass i stop => exact asked (.pass · stop) h (.pass stop)
  | poll i => exact asked .poll h .poll
  | take i => exact asked .take h .take
  | read i k => exact asked (.read · k) h (.read k)
  | reset i k => exact asked (.reset · k) h (.reset k)
  | cancel i k => exact asked (.cancel · k) h (.cancel k)
  | close i => exact asked .close h .close
  | _ => cases h

/-! ## Registrations -/

/-- what filesystems answer does not depend on the watch services -/
theorem answers_services (w : World) (services : Array WatchService) (left : Nat) :
    ({ w with services } : World).answers left = w.answers left := by
  induction left with
  | zero => rfl
  | succ left ih =>
    rw [answers, answers, ih]
    rfl

theorem look_services (w : World) (services : Array WatchService) (id : NamespaceId) (path : AbsolutePath) :
    ({ w with services } : World).look id path = w.look id path := by
  rw [look, look, external, answers_services]
  rfl

theorem register_missing {w : World} {n : Nat} (h : w.services[n]? = none) (path : AbsolutePath)
    (interest : List EventKind) : w.register n path interest = (.error .closed, w) := by
  rw [register]
  simp only [ask, h]

section Registrations

variable {w : World} {n : Nat} {s : WatchService} (hs : w.services[n]? = some s)
include hs

theorem setService_self : w.setService n s = w := by
  have same : w.services.setIfInBounds n s = w.services := by
    refine Array.ext_getElem? fun i => ?_
    rw [Array.getElem?_setIfInBounds]
    split
    · next h => rw [← h, hs, if_pos (Array.getElem?_eq_some_iff.1 hs).1]
    · rfl
  rw [setService, same]

/-- a registration is refused as it begins, or it is under way -/
theorem ask_cases (request : WatchRequest) :
    ((∃ e, w.ask n request = (.error e, w)) ∧ (s.isClosed = true ∨ w.askBeat? s.space request = none)) ∨
    (s.isClosed = false ∧ w.askBeat? s.space request = some (.ask request) ∧
      w.ask n request = (.ok s.space, w.setService n (s.ask request))) := by
  rw [ask, hs, askBeat?]
  dsimp only
  cases hc : s.isClosed with
  | true => exact .inl ⟨⟨_, rfl⟩, .inl rfl⟩
  | false =>
    cases hn : w.namespace? s.space with
    | none => exact .inl ⟨⟨_, rfl⟩, .inr rfl⟩
    | some ns =>
      simp only [Bool.false_eq_true, if_false, Option.bind_some]
      cases ns.checkBelongs request.path with
      | error e => exact .inl ⟨⟨e, rfl⟩, .inr rfl⟩
      | ok _ => exact .inr ⟨trivial, rfl, rfl⟩

/-- a registration that is under way, with the state of its path learned before anything else happens -/
theorem register_begun (hc : s.isClosed = false) {path : AbsolutePath} {interest : List EventKind}
    (begun : w.ask n ⟨path, interest⟩ = (.ok s.space, w.setService n (s.ask ⟨path, interest⟩))) :
    w.register n path interest = match w.look s.space path with
      | .error e => (.error e, w)
      | .ok seen => (.ok s.keys.size, w.setService n (s.register path interest seen w.elapsed).2) := by
  have there : (w.setService n (s.ask ⟨path, interest⟩)).services[n]? = some (s.ask ⟨path, interest⟩) := by
    simp [setService, (Array.getElem?_eq_some_iff.1 hs).1]
  have twice (t : WatchService) : (w.setService n (s.ask ⟨path, interest⟩)).setService n t = w.setService n t := by
    simp [setService]
  have looked : (w.setService n (s.ask ⟨path, interest⟩)).look s.space path = w.look s.space path :=
    look_services w _ _ _
  have withdrawn := withdraw_ask hc ⟨path, interest⟩
  rw [register, begun]
  dsimp only
  rw [looked, enroll, there]
  cases w.look s.space path with
  | error e =>
    dsimp only
    rw [withdrawn, twice, setService_self hs]
  | ok seen =>
    have enrolled (now : Nat) : (s.ask ⟨path, interest⟩).enroll ⟨path, interest⟩ seen now =
        s.register path interest seen now := by rw [WatchService.enroll, withdrawn]
    dsimp only
    rw [enrolled, twice]
    rfl

/-- **A registration that nothing comes between is one act, or it comes to nothing.** -/
theorem register_cases (path : AbsolutePath) (interest : List EventKind) :
    ((∃ e, w.register n path interest = (.error e, w)) ∧
      (s.isClosed = true ∨ w.registerAct? s.space path interest = none)) ∨
    ∃ seen, s.isClosed = false ∧
      w.registerAct? s.space path interest = some (.register path interest seen w.elapsed) ∧
      w.register n path interest = (.ok s.keys.size, w.setService n (s.register path interest seen w.elapsed).2) := by
  obtain ⟨⟨e, ha⟩, hidle⟩ | ⟨hc, hb, ha⟩ := ask_cases hs ⟨path, interest⟩
  · refine .inl ⟨⟨e, by rw [register, ha]⟩, hidle.imp_right fun hnone => ?_⟩
    rw [registerAct?, hnone]
    rfl
  · rw [registerAct?, hb, register_begun hs hc ha]
    cases w.look s.space path with
    | error e => exact .inl ⟨⟨e, rfl⟩, .inr rfl⟩
    | ok seen => exact .inr ⟨seen, hc, rfl, rfl⟩

end Registrations

section Others

variable (w : World) (n : Nat)

theorem onService_id : w.onService n id = w := by
  have same : w.services.modify n id = w.services := by
    refine Array.ext_getElem? fun i => ?_
    rw [Array.getElem?_modify, Option.map_id]
    split <;> rfl
  rw [onService, same]

theorem setService_eq_onService (s : WatchService) : w.setService n s = w.onService n fun _ => s := rfl

/-- a registration that begins is a change of one service -/
theorem ask_onService (request : WatchRequest) : ∃ f, (w.ask n request).2 = w.onService n f := by
  cases hs : w.services[n]? with
  | none => exact ⟨id, by rw [ask, hs, onService_id]⟩
  | some s =>
    obtain ⟨⟨e, ha⟩, -⟩ | ⟨-, -, ha⟩ := ask_cases hs request
    · exact ⟨id, by rw [ha, onService_id]⟩
    · exact ⟨_, by rw [ha, setService_eq_onService]⟩

/-- so is a registration that nothing comes between -/
theorem register_onService (path : AbsolutePath) (interest : List EventKind) :
    ∃ f, (w.register n path interest).2 = w.onService n f := by
  cases hs : w.services[n]? with
  | none => exact ⟨id, by rw [register_missing hs, onService_id]⟩
  | some s =>
    obtain ⟨⟨e, hr⟩, -⟩ | ⟨seen, -, -, hr⟩ := register_cases hs path interest
    · exact ⟨id, by rw [hr, onService_id]⟩
    · exact ⟨_, by rw [hr, setService_eq_onService]⟩

/-- and so is a reset -/
theorem reset_onService (k : KeyId) : ∃ f, (w.reset n k).2 = w.onService n f := by
  rw [reset]
  split
  · exact ⟨id, (w.onService_id n).symm⟩
  · exact ⟨_, w.setService_eq_onService n _⟩

end Others

section Services

variable {w : World} {n : Nat} {s : WatchService} (hs : w.services[n]? = some s)
include hs

theorem services_onService (m : Nat) (f : WatchService → WatchService) :
    (w.onService m f).services[n]? = some (if m = n then f s else s) := by
  rw [onService]
  simp only [Array.getElem?_modify, hs]
  split <;> rfl

theorem services_setService (m : Nat) (next : WatchService) :
    (w.setService m next).services[n]? = some (if m = n then next else s) := by
  rw [setService_eq_onService, services_onService hs]

theorem services_change (id : NamespaceId) (readings : Nat)
    (op : External → Time → Namespace → Except FsError Unit × Namespace) :
    (w.change id readings op).2.services[n]? = some s := by
  unfold change
  split
  · exact hs
  · exact hs

theorem services_operate (id : NamespaceId) (operation : Operation) :
    (w.operate id operation).services[n]? = some s := by
  cases operation with
  | listDirectory path => exact hs
  | resolve path => exact hs
  | _ => exact services_change hs id _ _

theorem services_closing (id : NamespaceId) : (w.closeNamespace id).services[n]? =
    some (if s.space = id ∧ w.IsOpen id then s.close else s) := by
  unfold closeNamespace
  split
  · next hn =>
    rw [if_neg (by simp [IsOpen, hn])]
    exact hs
  · next ns hn =>
    have there : w.IsOpen id ↔ ns.isOpen = true := by simp [IsOpen, hn]
    cases hopen : ns.isOpen with
    | false => simp [there, hopen, hs]
    | true => simp [there, hopen, setNamespace, hs]

theorem services_unregister (name : String) : (w.unregister name).2.services[n]? =
    some (if w.registry.lookup name = some s.space ∧ w.IsOpen s.space then s.close else s) := by
  rw [unregister]
  cases hr : w.registry.lookup name with
  | none => simpa using hs
  | some id =>
    have closed := services_closing (w := { w with registry := w.registry.filter fun p => p.1 != name }) hs id
    dsimp only
    rw [closed]
    by_cases hid : s.space = id
    · subst hid
      simp only [true_and]
      rfl
    · rw [if_neg (fun h => hid h.1), if_neg (fun h => hid (Option.some.inj h.1).symm)]

theorem services_watch {id : NamespaceId} {made : Nat} {next : World} (h : w.watch id = .ok (made, next)) :
    next.services[n]? = some s := by
  obtain ⟨ns, -, -, -, rfl⟩ := watch_eq_ok h
  exact (Array.getElem?_push_lt (Array.getElem?_eq_some_iff.1 hs).1).trans
    (congrArg some (Array.getElem?_eq_some_iff.1 hs).2)

theorem services_register (m : Nat) (path : AbsolutePath) (interest : List EventKind) :
    (w.register m path interest).2.services[n]? =
      some (s.play (w.beat? n s (.register m path interest)).toList) := by
  rw [beat?]
  by_cases hm : m = n
  · subst hm
    rw [if_pos rfl]
    obtain ⟨⟨e, hr⟩, hidle⟩ | ⟨seen, hc, ha, hr⟩ := register_cases hs path interest
    · rw [hr]
      rcases hidle with hc | ha
      · -- nobody registers with a closed service
        cases ha : w.registerAct? s.space path interest with
        | none => exact hs
        | some act =>
          obtain ⟨-, seen, -, rfl⟩ := registerAct?_eq_some ha
          exact hs.trans (congrArg some (if_pos hc).symm)
      · rw [ha]
        exact hs
    · rw [hr, ha, services_setService hs, if_pos rfl]
      exact congrArg some (if_neg (by simp [hc])).symm
  · obtain ⟨f, hf⟩ := w.register_onService m path interest
    rw [hf, services_onService hs, if_neg hm, if_neg hm]
    rfl

theorem services_ask (m : Nat) (request : WatchRequest) : (w.ask m request).2.services[n]? =
    some (s.play (w.beat? n s (.ask m request)).toList) := by
  rw [beat?]
  by_cases hm : m = n
  · subst hm
    rw [if_pos rfl]
    obtain ⟨⟨e, ha⟩, hidle⟩ | ⟨hc, hb, ha⟩ := ask_cases hs request
    · rw [ha]
      rcases hidle with hc | hnone
      · -- no registration begins in a closed service
        cases hb : w.askBeat? s.space request with
        | none => exact hs
        | some b =>
          obtain ⟨-, rfl⟩ := askBeat?_eq_some hb
          exact hs.trans (congrArg some (if_pos hc).symm)
      · rw [hnone]
        exact hs
    · rw [ha, hb, services_setService hs, if_pos rfl]
      rfl
  · obtain ⟨f, hf⟩ := w.ask_onService m request
    rw [hf, services_onService hs, if_neg hm, if_neg hm]
    rfl

theorem services_reset (m : Nat) (k : KeyId) : (w.reset m k).2.services[n]? =
    some (s.play (w.beat? n s (.reset m k)).toList) := by
  rw [beat?]
  by_cases hm : m = n
  · subst hm
    rw [reset, hs, if_pos rfl]
    exact (services_setService hs _ _).trans (congrArg some (if_pos rfl))
  · obtain ⟨f, hf⟩ := w.reset_onService m k
    rw [hf, services_onService hs, if_neg hm, if_neg hm]
    rfl

/-- **A move, seen by one service.** -/
theorem services_after (m : Move) : (w.after m).services[n]? = some (s.play (w.beat? n s m).toList) := by
  have asked (i : Nat) (b : Beat) :
      (w.onService i (·.beat b)).services[n]? = some (s.play (if i = n then some b else none).toList) := by
    rw [services_onService hs]
    split <;> rfl
  cases m with
  | outside host volumes readings => exact hs
  | createNamespace settings => exact hs
  | registerNamespace settings =>
    simp only [after, registerNamespace]
    split
    · exact hs
    · exact hs
  | closeNamespace id =>
    rw [after, services_closing hs, beat?]
    split <;> rfl
  | unregister name =>
    rw [after, services_unregister hs, beat?]
    split <;> rfl
  | operate id operation => exact services_operate hs id operation
  | watch id =>
    rw [after]
    split
    · next hm => exact services_watch hs hm
    · exact hs
  | register i path interest => exact services_register hs i path interest
  | ask i request => exact services_ask hs i request
  | enroll i request seen => exact asked i (.enroll request seen w.elapsed)
  | withdraw i request => exact asked i (.withdraw request)
  | look i k =>
    rw [after, services_onService hs, beat?]
    by_cases hi : i = n
    · by_cases hw : s.Working k
      · rw [if_pos hi, if_pos hw, if_pos ⟨hi, hw⟩, runWorker_eq hw]
      · rw [if_pos hi, if_neg hw, if_neg fun h => hw h.2]
        rfl
    · rw [if_neg hi, if_neg fun h => hi h.1]
      rfl
  | answer i k seen => exact asked i (.answer k seen)
  | pass i stop => exact asked i (.act (.pass stop))
  | poll i => exact asked i (.act .poll)
  | take i => exact asked i (.act .take)
  | read i k => exact asked i (.act (.read k))
  | reset i k => exact services_reset hs i k
  | cancel i k => exact asked i (.act (.cancel k))
  | close i => exact asked i (.act .close)
  | elapse moment => exact hs

/-- a run, seen by one service -/
theorem services_run (moves : List Move) : ∃ beats, (w.run moves).services[n]? = some (s.play beats) := by
  induction moves generalizing w s with
  | nil => exact ⟨[], hs⟩
  | cons m rest ih =>
    obtain ⟨beats, hrest⟩ := ih (services_after hs m)
    exact ⟨(w.beat? n s m).toList ++ beats, by rw [play_append]; exact hrest⟩

end Services

/-! ## A move seen by one namespace -/

/-- what a move is to a namespace -/
def event? (w : World) (id : NamespaceId) : Move → Option Event
  | .operate j operation => if j = id then some (.turn ⟨w.external, w.clock, operation⟩) else none
  | .closeNamespace j => if j = id then some .close else none
  | .unregister name => if w.registry.lookup name = some id then some .close else none
  | _ => none

/-- namespaces are found under their own numbers -/
def Numbered (w : World) : Prop := ∀ id ns, w.namespace? id = some ns → ns.id = id

section Namespaces

variable {w : World} {id : NamespaceId} {ns : Namespace}

theorem namespace?_eq_some : w.namespace? id = some ns ↔ id ≠ 0 ∧ w.namespaces[id - 1]? = some ns := by
  rw [namespace?]
  split
  · next h => simp [h]
  · next h => simp [h]

theorem setNamespace_self (h : w.namespace? ns.id = some ns) : w.setNamespace ns = w := by
  obtain ⟨hlt, hget⟩ := Array.getElem?_eq_some_iff.1 (namespace?_eq_some.1 h).2
  have same : w.namespaces.setIfInBounds (ns.id - 1) ns = w.namespaces := by
    refine Array.ext (Array.size_setIfInBounds) fun i _ hi => ?_
    rw [Array.getElem_setIfInBounds]
    split
    · next heq => rw [← hget]; simp only [heq]
    · rfl
  rw [setNamespace, same]

theorem namespace?_setNamespace_ne {other old : Namespace} (hold : w.namespace? other.id = some old)
    (hne : other.id ≠ id) : (w.setNamespace other).namespace? id = w.namespace? id := by
  have hother : other.id ≠ 0 := (namespace?_eq_some.1 hold).1
  rw [namespace?, namespace?]
  split
  · rfl
  · next hid => exact Array.getElem?_setIfInBounds_ne (by rw [ne_eq] at *; grind)

theorem namespace?_createNamespace (settings : Settings) : (w.createNamespace settings).2.namespace? id =
    if id = w.namespaces.size + 1 then some (.new id settings w.clock) else w.namespace? id := by
  rw [namespace?, namespace?]
  split
  · next h => simp [h]
  · next h => 
    show (w.namespaces.push _)[id - 1]? = _
    rw [Array.getElem?_push]
    have index : id - 1 = w.namespaces.size ↔ id = w.namespaces.size + 1 := by grind
    simp only [index]
    split
    · next heq => rw [heq]
    · rfl

/-- a namespace more -/
theorem namespace?_more (h : w.namespace? id = some ns) (settings : Settings) :
    (w.createNamespace settings).2.namespace? id = some ns := by
  obtain ⟨hpos, hget⟩ := namespace?_eq_some.1 h
  have hlt : id - 1 < w.namespaces.size := (Array.getElem?_eq_some_iff.1 hget).1
  have hne : ¬id = w.namespaces.size + 1 := fun heq => by rw [heq] at hlt; exact Nat.lt_irrefl _ hlt
  rw [namespace?_createNamespace, if_neg hne]
  exact h

theorem advance_zero (w : World) : w.advance 0 = w := by simp [advance]

variable (hnum : w.Numbered)
include hnum

/-- an operation of a namespace is a turn of it, and the clock runs on past its readings -/
theorem operate_eq (h : w.namespace? id = some ns) (operation : Operation) : w.operate id operation =
    (w.setNamespace (ns.turn ⟨w.external, w.clock, operation⟩).2).advance operation.readings := by
  have changed (readings : Nat) (op : External → Time → Namespace → Except FsError Unit × Namespace) :
      (w.change id readings op).2 = (w.setNamespace (op w.external w.clock ns).2).advance readings := by
    rw [change, h]
  obtain rfl := hnum id ns h
  cases operation with
  | createDirectory path => exact changed 2 _
  | createDirectories path => exact changed (readingsAlong path.1) _
  | delete path => exact changed 1 _
  | rename source target => exact changed 1 _
  | mount source at_ => exact changed 1 _
  | unmount path => exact changed 0 _
  | listDirectory path => exact ((advance_zero _).trans (setNamespace_self h)).symm
  | resolve path => exact ((advance_zero _).trans (setNamespace_self h)).symm

omit hnum in
theorem operate_missing (h : w.namespace? id = none) (operation : Operation) : w.operate id operation = w := by
  have changed (readings : Nat) (op : External → Time → Namespace → Except FsError Unit × Namespace) :
      (w.change id readings op).2 = w := by
    rw [change, h]
  cases operation with
  | listDirectory path => rfl
  | resolve path => rfl
  | _ => exact changed _ _

/-- one namespace changed by what an event does to it -/
theorem namespace?_changed (h : w.namespace? id = some ns) {j : NamespaceId} {other next : Namespace}
    (hj : w.namespace? j = some other) (hnext : next.id = other.id) :
    (w.setNamespace next).namespace? id = some (if j = id then next else ns) := by
  have hid : next.id = j := hnext.trans (hnum j other hj)
  subst hid
  split
  · next heq => exact heq ▸ namespace?_setNamespace hj
  · next hne => exact (namespace?_setNamespace_ne hj hne).trans h

theorem namespace?_operate (h : w.namespace? id = some ns) (j : NamespaceId) (operation : Operation) :
    (w.operate j operation).namespace? id =
      some (ns.run (w.event? id (.operate j operation)).toList) := by
  rw [event?]
  cases hj : w.namespace? j with
  | none =>
    have hne : j ≠ id := by
      rintro rfl
      rw [hj] at h
      cases h
    rw [operate_missing hj, if_neg hne]
    exact h
  | some other =>
    rw [operate_eq hnum hj]
    refine (namespace?_changed hnum h hj (other.turn_shell _).id).trans (congrArg some ?_)
    split
    · next heq =>
      subst heq
      obtain rfl := Option.some.inj (h.symm.trans hj)
      rfl
    · rfl

theorem namespace?_closeNamespace (h : w.namespace? id = some ns) (j : NamespaceId) :
    (w.closeNamespace j).namespace? id = some (ns.run (w.event? id (.closeNamespace j)).toList) := by
  rw [event?, closeNamespace]
  cases hj : w.namespace? j with
  | none =>
    have hne : j ≠ id := by
      rintro rfl
      rw [hj] at h
      cases h
    rw [if_neg hne]
    exact h
  | some other =>
    cases hopen : other.isOpen with
    | false =>
      simp only [hopen, Bool.not_false, if_true, h]
      split
      · next heq =>
        -- a namespace that is closed stays as it is
        subst heq
        obtain rfl := Option.some.inj (h.symm.trans hj)
        exact congrArg some (show ns = { ns with isOpen := false } from hopen ▸ rfl)
      · rfl
    | true =>
      simp only [hopen, Bool.not_true, Bool.false_eq_true, if_false]
      have closed : ({ other with isOpen := false } : Namespace).id = other.id := rfl
      refine (namespace?_changed (w := { w with services := _ }) hnum h hj closed).trans (congrArg some ?_)
      split
      · next heq =>
        subst heq
        obtain rfl := Option.some.inj (h.symm.trans hj)
        rfl
      · rfl

/-- **A move, seen by one namespace.** -/
theorem namespaces_after (h : w.namespace? id = some ns) (m : Move) :
    (w.after m).namespace? id = some (ns.run (w.event? id m).toList) := by
  cases m with
  | outside host volumes readings => exact h
  | createNamespace settings => exact namespace?_more h settings
  | registerNamespace settings =>
    rw [after, registerNamespace]
    split
    · exact h
    · exact namespace?_more h settings
  | closeNamespace j => exact namespace?_closeNamespace hnum h j
  | unregister name =>
    rw [after, unregister, event?]
    cases hr : w.registry.lookup name with
    | none => exact h
    | some j =>
      have closed := namespace?_closeNamespace (w := { w with registry := w.registry.filter fun p => p.1 != name })
        hnum h j
      simpa only [Option.some.injEq, event?] using closed
  | operate j operation => exact namespace?_operate hnum h j operation
  | watch j =>
    rw [after]
    split
    · next hm =>
      obtain ⟨-, -, -, -, rfl⟩ := watch_eq_ok hm
      exact h
    · exact h
  | register n path interest =>
    obtain ⟨f, hf⟩ := w.register_onService n path interest
    rw [after, hf]
    exact h
  | ask n request =>
    obtain ⟨f, hf⟩ := w.ask_onService n request
    rw [after, hf]
    exact h
  | enroll n request seen => exact h
  | withdraw n request => exact h
  | look n k => exact h
  | answer n k seen => exact h
  | pass n stop => exact h
  | poll n => exact h
  | take n => exact h
  | read n k => exact h
  | reset n k =>
    obtain ⟨f, hf⟩ := w.reset_onService n k
    rw [after, hf]
    exact h
  | cancel n k => exact h
  | close n => exact h
  | elapse moment => exact h

end Namespaces

end World

end MountSpace

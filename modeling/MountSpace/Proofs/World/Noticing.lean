/-
What the watcher of a directory notices. A worker compares the time of last change with the one its key remembers, and
the key remembers the time that was found at the last look before, or at the registration. As times of vertices are
apart, two looks find the same time exactly if they find the same vertex and nothing has touched it in between. So the
later look tells of a change exactly if another vertex is there now, or a directory was made in the vertex or taken out
of it, or it was renamed. What is mounted over it in the meantime, what becomes of the directories above it, and what
happens below its children goes unnoticed.

- `structural_changes_noticed`: two looks at one key, and what the later one tells.
-/
import MountSpace.Proofs.World.Ending
import MountSpace.Proofs.World.Times

namespace MountSpace

namespace WatchService

/-! ## A key between two looks -/

/-- nobody has looked at a key: it remembers what it remembered, and its worker goes on -/
structure Rests (s : WatchService) (k : KeyId) (key : WatchKey) (t : WatchService) (next : WatchKey) : Prop where
  space : t.space = s.space
  path : next.path = key.path
  lastSeen : next.lastSeen = key.lastSeen
  working : s.Working k → t.Working k

theorem Rests.refl (s : WatchService) (k : KeyId) (key : WatchKey) : s.Rests k key s key := ⟨rfl, rfl, rfl, id⟩

theorem Rests.trans {s mid t : WatchService} {k : KeyId} {key between next : WatchKey}
    (h : s.Rests k key mid between) (ht : mid.Rests k between t next) : s.Rests k key t next :=
  ⟨ht.space.trans h.space, ht.path.trans h.path, ht.lastSeen.trans h.lastSeen, fun hw => ht.working (h.working hw)⟩

section Kept

variable {s t : WatchService} {k : KeyId} {key next : WatchKey} {b : Beat}

/-- a beat that is not made by the worker of a key lets the key rest -/
theorem Meets.rests (hk : s.key? k = some key) (hm : s.Meets k key b t) (hspace : t.space = s.space)
    (hb : b.worker? ≠ some k) : ∃ next, t.key? k = some next ∧ s.Rests k key t next := by
  cases hm with
  | spared alone => exact ⟨key, alone.key.trans hk, hspace, rfl, rfl, alone.working.2⟩
  | quit => exact absurd rfl hb
  | stale => exact absurd rfl hb
  | calm found => exact absurd (Beat.worker?_of_found found) hb
  | told found => exact absurd (Beat.worker?_of_found found) hb
  | late => exact absurd rfl hb
  | handed => exact ⟨key, hk, hspace, rfl, rfl, id⟩
  | read => exact ⟨_, key?_changed hk _, hspace, rfl, rfl, id⟩
  | reset => exact ⟨_, key?_changed hk _, hspace, rfl, rfl, fun hw => (working_start _ _ _ _).2 (.inl hw)⟩
  | cancel => exact ⟨_, key?_changed hk _, hspace, rfl, rfl, id⟩
  | close opened =>
    have kept : s.Working k → s.close.Working k := by
      obtain ⟨keys, -, heq⟩ := close_eq opened
      rw [heq]
      exact id
    rw [key?_close, hk]
    split
    · exact ⟨_, rfl, hspace, rfl, rfl, kept⟩
    · exact ⟨_, rfl, hspace, rfl, rfl, kept⟩

/-- of the keys that a service has as it is closed none stays valid but the signalled ones -/
theorem Meets.settles (horderly : s.Orderly) (hk : s.key? k = some key)
    (h : s.isClosed = true → key.valid = true → key.signalled = true) (hm : s.Meets k key b t)
    (hn : t.key? k = some next) : t.isClosed = true → next.valid = true → next.signalled = true := by
  intro hc
  have still_open (opened : s.isClosed = false) (same : t.isClosed = s.isClosed) : False := by
    rw [same, opened] at hc
    cases hc
  cases hm with
  | spared alone =>
    rw [alone.key, hk] at hn
    cases hn
    exact h (alone.isClosed ▸ hc)
  | quit =>
    obtain rfl := Option.some.inj (hk.symm.trans hn)
    exact h hc
  | stale =>
    obtain rfl := Option.some.inj (hk.symm.trans hn)
    exact h hc
  | calm found working valid opened => exact (still_open opened rfl).elim
  | told found working valid opened => exact (still_open opened rfl).elim
  | late working gone remembers live ready isClosed =>
    obtain rfl := Option.some.inj (remembers.symm.trans hn)
    exact h (isClosed ▸ hc)
  | handed asked opened => exact (still_open opened rfl).elim
  | read =>
    obtain rfl := eq_of_changed hk hn
    exact h hc
  | reset valid opened => exact (still_open opened rfl).elim
  | cancel =>
    obtain rfl := eq_of_changed hk hn
    exact nofun
  | close opened =>
    rw [key?_close_of_orderly horderly opened hk] at hn
    cases hn
    intro hv
    simp only [Bool.and_eq_true] at hv
    exact hv.2

/-- a look at a key that is wanted is remembered -/
theorem key?_observe (hk : s.key? k = some key) (hv : key.valid = true) (hc : s.isClosed = false)
    (seen : Option Time) : ∃ next, (s.observe k seen).key? k = some next ∧ next.path = key.path ∧
      next.lastSeen = seen := by
  by_cases he : key.events seen = []
  · rw [observe_calm hk hv hc he]
    exact ⟨key.see seen, key?_changed hk _, rfl, rfl⟩
  · rw [observe_telling hk hv hc he]
    exact ⟨(key.see seen).signal (key.events seen), by simp [hk], rfl, rfl⟩

end Kept

/-! ## What comes of a look -/

/-- a key has been told of a change of some kind, and that alone -/
def Tells (s : WatchService) (k : KeyId) (key : WatchKey) (kind : EventKind) (t : WatchService) : Prop :=
  ∃ next, t.key? k = some next ∧ next.signalled = true ∧ next.outbox = [⟨kind, key.path, 1⟩] ∧ t.ready = s.ready ++ [k]

/-- a key has been told nothing -/
def Silences (s : WatchService) (k : KeyId) (key : WatchKey) (t : WatchService) : Prop :=
  ∃ next, t.key? k = some next ∧ next.signalled = false ∧ next.outbox = key.outbox ∧ t.ready = s.ready

/-- two times are told as a change exactly if they differ -/
theorem observe_times {s : WatchService} {k : KeyId} {key : WatchKey} (hk : s.key? k = some key)
    (hv : key.valid = true) (hc : s.isClosed = false) (hs : key.signalled = false) (hm : .modified ∈ key.interest)
    {τ : Time} (hlast : key.lastSeen = some τ) (σ : Time) :
    (s.Tells k key .modified (s.observe k (some σ)) ↔ τ ≠ σ) ∧ (τ = σ → s.Silences k key (s.observe k (some σ))) := by
  have told : key.events (some σ) = if τ ≠ σ then [⟨.modified, key.path, 1⟩] else [] := by
    rw [WatchKey.events, hlast, transition]
    split_ifs
    · exact if_pos hm
    · rfl
  by_cases heq : τ = σ
  · rw [if_neg (not_not.2 heq)] at told
    rw [observe_calm hk hv hc told]
    have kept := key?_changed hk (·.see (some σ))
    refine ⟨⟨?_, fun hne => absurd heq hne⟩, fun _ => ⟨_, kept, hs, rfl, rfl⟩⟩
    rintro ⟨next, hn, hsignalled, -⟩
    obtain rfl := Option.some.inj (kept.symm.trans hn)
    rw [show (key.see (some σ)).signalled = key.signalled from rfl, hs] at hsignalled
    cases hsignalled
  · rw [if_pos heq] at told
    rw [observe_telling hk hv hc (by rw [told]; exact List.cons_ne_nil _ _), told]
    refine ⟨⟨fun _ => heq, fun _ => ?_⟩, fun h => absurd h heq⟩
    exact ⟨(key.see (some σ)).signal [⟨.modified, key.path, 1⟩], by simp [hk], rfl, rfl, rfl⟩

end WatchService

namespace World

open WatchService

/-- a move is made by the worker of a key -/
def Move.LooksAt (n : Nat) (k : KeyId) : Move → Prop
  | .look m j | .answer m j _ => m = n ∧ j = k
  | _ => False

/-- a key is looked at: as it is registered, or by its worker while the service is open, and either may take a while;
the move is the one with which the key learns what was found -/
inductive Sighting (w : World) (n : Nat) (k : KeyId) : List Move → Move → Prop where
  | register {path : AbsolutePath} {interest : List EventKind} (accepted : (w.register n path interest).1 = .ok k) :
      Sighting w n k [] (.register n path interest)
  | enroll {s t : WatchService} {request : WatchRequest} {seen : Option Time} {delay : List Move}
      (there : w.services[n]? = some s) (found : w.look s.space request.path = .ok seen)
      (still : (w.run delay).services[n]? = some t) (asked : request ∈ t.asked) (next : k = t.keys.size) :
      Sighting w n k delay (.enroll n request seen)
  | look {s : WatchService} (there : w.services[n]? = some s) (opened : s.isClosed = false) (working : s.Working k) :
      Sighting w n k [] (.look n k)
  | answer {s : WatchService} {key : WatchKey} {seen : Option Time} {delay : List Move}
      (there : w.services[n]? = some s) (opened : s.isClosed = false) (known : s.key? k = some key)
      (working : s.Working k) (found : w.look s.space key.path = .ok seen) (alone : ∀ m ∈ delay, ¬m.LooksAt n k) :
      Sighting w n k delay (.answer n k seen)

/-- a path ends at a vertex of the tree of a namespace -/
def Shows (w : World) (id : NamespaceId) (path : AbsolutePath) (v : NodeId) : Prop :=
  ∃ ns place, w.namespace? id = some ns ∧ ns.place w.external path = .ok place ∧ place.nodeId? = some v

theorem shows_iff {w : World} {id : NamespaceId} {path : AbsolutePath} {v : NodeId} : w.Shows id path v ↔
    ((w.namespace? id).bind fun ns => (ns.place w.external path).toOption.bind Place.nodeId?) = some v := by
  constructor
  · rintro ⟨ns, place, hns, hplace, hv⟩
    rw [hns, Option.bind_some, hplace]
    exact hv
  · intro h
    obtain ⟨ns, hns, hbind⟩ := Option.bind_eq_some_iff.1 h
    obtain ⟨place, hplace, hv⟩ := Option.bind_eq_some_iff.1 hbind
    refine ⟨ns, place, hns, ?_, hv⟩
    cases hr : ns.place w.external path with
    | error e =>
      rw [hr] at hplace
      cases hplace
    | ok other =>
      rw [hr] at hplace
      cases hplace
      rfl

instance (w : World) (id : NamespaceId) (path : AbsolutePath) (v : NodeId) : Decidable (w.Shows id path v) :=
  decidable_of_iff _ shows_iff.symm

section Looks

variable {w : World} {n : Nat} {k : KeyId}

/-- the worker of a key makes no beat but in a move that looks at the key -/
theorem looksAt_of_worker {s : WatchService} {m : Move} {b : Beat} (hb : w.beat? n s m = some b)
    (hworker : b.worker? = some k) : m.LooksAt n k := by
  cases arises hb with
  | look => exact ⟨rfl, Option.some.inj hworker⟩
  | quit => exact ⟨rfl, Option.some.inj hworker⟩
  | answer => exact ⟨rfl, Option.some.inj hworker⟩
  | _ => cases hworker

/-- a key rests while nobody looks at it -/
theorem run_rests {s : WatchService} {key : WatchKey} (hs : w.services[n]? = some s) (hk : s.key? k = some key)
    {moves : List Move} (alone : ∀ m ∈ moves, ¬m.LooksAt n k) :
    ∃ t next, (w.run moves).services[n]? = some t ∧ t.key? k = some next ∧ s.Rests k key t next := by
  induction moves generalizing w s key with
  | nil => exact ⟨s, key, hs, hk, .refl s k key⟩
  | cons m rest ih =>
    have first : ∃ mid, (s.play (w.beat? n s m).toList).key? k = some mid ∧
        s.Rests k key (s.play (w.beat? n s m).toList) mid := by
      cases hb : w.beat? n s m with
      | none => exact ⟨key, hk, .refl s k key⟩
      | some b =>
        refine (beat_meets hk b).rests hk (Stands.beat s b).space fun hworker => ?_
        exact alone m List.mem_cons_self (looksAt_of_worker hb hworker)
    obtain ⟨mid, hmid, hfirst⟩ := first
    obtain ⟨t, next, ht, hn, hrest⟩ :=
      ih (services_after hs m) hmid fun m hm => alone m (List.mem_cons_of_mem _ hm)
    exact ⟨t, next, ht, hn, hfirst.trans hrest⟩

/-- what a look finds at a vertex is the time of its last change -/
theorem look_of_shows {id : NamespaceId} {ns : Namespace} (hns : w.namespace? id = some ns) (ht : ns.tree.Stacked)
    {path : AbsolutePath} {v : NodeId} (h : w.Shows id path v) :
    ∃ τ, ns.tree.modified? v = some τ ∧ w.look id path = .ok (some τ) := by
  obtain ⟨same, place, hsame, hplace, hv⟩ := h
  obtain rfl := Option.some.inj (hns.symm.trans hsame)
  have resolved : ns.tree.resolve w.external path = .ok place := by
    rw [Namespace.place] at hplace
    split at hplace
    · cases hplace
    · exact hplace
  obtain ⟨_, node, -, -, hnode, rfl⟩ := Tree.follow_of_resolve ht resolved hv
  refine ⟨node.times.modified, Tree.modified?_of_node? hnode, ?_⟩
  rw [look, hns]
  dsimp only
  rw [Namespace.readAttributes, hplace]
  cases node with
  | directory dir => rfl
  | mount m => rfl

/-- a registration that is accepted makes a key that was not there, and looks at its path -/
theorem register_accepted {path : AbsolutePath} {interest : List EventKind}
    (h : (w.register n path interest).1 = .ok k) : ∃ s seen, w.services[n]? = some s ∧ k = s.keys.size ∧
      w.look s.space path = .ok seen ∧
      (w.after (.register n path interest)).services[n]? = some (s.register path interest seen w.elapsed).2 := by
  cases hs : w.services[n]? with
  | none =>
    rw [register_missing hs] at h
    cases h
  | some s =>
    obtain ⟨⟨e, hr⟩, -⟩ | ⟨seen, -, ha, hr⟩ := register_cases hs path interest
    · rw [hr] at h
      cases h
    · rw [hr] at h
      obtain ⟨-, same, hlook, heq⟩ := registerAct?_eq_some ha
      cases heq
      refine ⟨s, seen, rfl, (Except.ok.inj h).symm, hlook, ?_⟩
      rw [World.after, hr, services_setService hs, if_pos rfl]

variable (hw : w.Sound)
include hw

/-- a key that is signalled if it is still valid once its service is closed remains so -/
theorem Sound.settled {s t : WatchService} {key next : WatchKey} (hs : w.services[n]? = some s)
    (hk : s.key? k = some key) (h : s.isClosed = true → key.valid = true → key.signalled = true) {moves : List Move}
    (ht : (w.run moves).services[n]? = some t) (hn : t.key? k = some next) :
    t.isClosed = true → next.valid = true → next.signalled = true := by
  induction moves generalizing w s key with
  | nil =>
    obtain rfl := Option.some.inj (hs.symm.trans ht)
    obtain rfl := Option.some.inj (hk.symm.trans hn)
    exact h
  | cons m rest ih =>
    have hafter := services_after hs m
    cases hb : w.beat? n s m with
    | none =>
      rw [hb] at hafter
      exact ih (hw.after m) hafter hk h ht
    | some b =>
      rw [hb] at hafter
      obtain ⟨mid, hmid, -⟩ := (beat_meets hk b).stays hk
      exact ih (hw.after m) hafter hmid ((beat_meets hk b).settles (hw.orderly n s hs) hk h hmid) ht

/-- a key that is wanted in the end was wanted all the time -/
theorem Sound.wanted_before {s t : WatchService} {key next : WatchKey} (hs : w.services[n]? = some s)
    (hk : s.key? k = some key) (moves : List Move) (ht : (w.run moves).services[n]? = some t)
    (hn : t.key? k = some next) (hv : next.valid = true) (hc : t.isClosed = false) :
    key.valid = true ∧ s.isClosed = false := by
  have wanted : ¬(key.valid = false ∨ s.isClosed = true) := by
    intro ended
    obtain ⟨t', next', ht', hn', hended⟩ := (hw.silent_run ⟨s, key, hs, hk, ended.imp_right .inl⟩ moves).ended
    obtain rfl := Option.some.inj (ht.symm.trans ht')
    obtain rfl := Option.some.inj (hn.symm.trans hn')
    rcases (hw.run moves).ended_cases ht hended with hgone | hclosed
    · rw [hv] at hgone
      cases hgone
    · rw [hc] at hclosed
      cases hclosed
  simpa using wanted

variable {delay : List Move} {m : Move}

omit hw in
/-- the number of a key that is made is not the number of a key that is there -/
theorem absent {v : World} {s t : WatchService} {key : WatchKey} (hs : v.services[n]? = some s)
    (hk : s.key? k = some key) (ht : v.services[n]? = some t) (next : k = t.keys.size) : False := by
  obtain rfl := Option.some.inj (hs.symm.trans ht)
  exact Nat.lt_irrefl _ (next ▸ key?_lt hk)

/-- the worker of a key that is wanted tells it what was there as it began to look -/
theorem Sighting.observes (h : w.Sighting n k delay m) {s : WatchService} {key : WatchKey}
    (hs : (w.run delay).services[n]? = some s) (hk : s.key? k = some key) (hv : key.valid = true)
    (hc : s.isClosed = false) : ∃ seen, w.look s.space key.path = .ok seen ∧
      ((w.run delay).after m).services[n]? = some (s.observe k seen) := by
  cases h with
  | register accepted =>
    obtain ⟨same, seen, hsame, hnext, -⟩ := register_accepted accepted
    exact (absent hs hk hsame hnext).elim
  | enroll there found still asked next => exact (absent hs hk still next).elim
  | look there opened working =>
    obtain rfl := Option.some.inj (hs.symm.trans there)
    obtain ⟨seen, hlook, hact⟩ := hw.lookAct_eq there hc key.path k
    refine ⟨seen, hlook, (services_after there (.look n k)).trans (congrArg some ?_)⟩
    rw [beat?, if_pos ⟨rfl, working⟩, hk, Option.map_some, hact]
    exact if_pos working
  | @answer s₀ key₀ seen _ there opened known working found alone =>
    obtain ⟨t, next, ht, hn, hrests⟩ := run_rests there known alone
    obtain rfl := Option.some.inj (hs.symm.trans ht)
    obtain rfl := Option.some.inj (hk.symm.trans hn)
    refine ⟨seen, by rw [hrests.space, hrests.path]; exact found, ?_⟩
    refine (services_after hs (.answer n k seen)).trans (congrArg some ?_)
    have answered : s.observe k seen = s.conclude k seen := by
      rw [observe_eq, hk, Option.any_some, if_neg (by simp [hv, hc])]
    rw [beat?, if_pos rfl, answered]
    exact if_pos (hrests.working working)

omit hw in
theorem Sighting.alone (h : w.Sighting n k delay m) {s : WatchService} {key : WatchKey}
    (hs : (w.run delay).services[n]? = some s) (hk : s.key? k = some key) : ∀ x ∈ delay, ¬x.LooksAt n k := by
  cases h with
  | register => exact nofun
  | enroll there found still asked next => exact (absent hs hk still next).elim
  | look => exact nofun
  | answer there opened known working found alone => exact alone

/-- a key that its worker looks at is signalled if it is still valid once its service is closed -/
theorem Sighting.settled (h : w.Sighting n k delay m) {s : WatchService} {key : WatchKey}
    (hs : (w.run delay).services[n]? = some s) (hk : s.key? k = some key) :
    s.isClosed = true → key.valid = true → key.signalled = true := by
  cases h with
  | register accepted =>
    obtain ⟨same, seen, hsame, hnext, -⟩ := register_accepted accepted
    exact (absent hs hk hsame hnext).elim
  | enroll there found still asked next => exact (absent hs hk still next).elim
  | look there opened working =>
    obtain rfl := Option.some.inj (hs.symm.trans there)
    exact fun hc => absurd hc (by simp [opened])
  | answer there opened known => exact hw.settled there known (fun hc => absurd hc (by simp [opened])) hs hk

/-- after a look a key that is wanted remembers what was there as the look began -/
theorem Sighting.remembered (h : w.Sighting n k delay m) :
    ∃ t next, ((w.run delay).after m).services[n]? = some t ∧ t.key? k = some next ∧
      (next.valid = true → t.isClosed = false → w.look t.space next.path = .ok next.lastSeen) := by
  have by_worker {s : WatchService} {key : WatchKey} (hs : (w.run delay).services[n]? = some s)
      (hk : s.key? k = some key) : ∃ t next, ((w.run delay).after m).services[n]? = some t ∧ t.key? k = some next ∧
      (next.valid = true → t.isClosed = false → w.look t.space next.path = .ok next.lastSeen) := by
    have hafter := services_after hs m
    have stays : ∃ next, (s.play ((w.run delay).beat? n s m).toList).key? k = some next := by
      cases (w.run delay).beat? n s m with
      | none => exact ⟨key, hk⟩
      | some b =>
        obtain ⟨next, hn, -⟩ := (beat_meets hk b).stays hk
        exact ⟨next, hn⟩
    obtain ⟨next, hn⟩ := stays
    refine ⟨_, next, hafter, hn, fun hv hc => ?_⟩
    obtain ⟨hvalid, hopen⟩ := (hw.run delay).wanted_before hs hk [m] hafter hn hv hc
    obtain ⟨seen, hlook, hobserved⟩ := h.observes hw hs hk hvalid hopen
    rw [hafter] at hobserved
    rw [(Stands.play s _).space]
    rw [Option.some.inj hobserved] at hn
    obtain ⟨same, hsame, hpath, hseen⟩ := key?_observe hk hvalid hopen seen
    obtain rfl := Option.some.inj (hn.symm.trans hsame)
    rw [hpath, hseen]
    exact hlook
  cases h with
  | @register path interest accepted =>
    obtain ⟨s, seen, hs, rfl, hlook, hafter⟩ := register_accepted accepted
    exact ⟨_, .new path interest seen, hafter, by rw [key?_register, if_pos rfl], fun _ _ => hlook⟩
  | @enroll s t request seen _ there found still asked next =>
    have made := services_after still (.enroll n request seen)
    rw [beat?, if_pos rfl] at made
    have enrolled : t.play (some (.enroll request seen (w.run delay).elapsed)).toList =
        (t.enroll request seen (w.run delay).elapsed).2 := if_pos asked
    rw [enrolled] at made
    obtain ⟨beats, hbeats⟩ := services_run there delay
    obtain rfl := Option.some.inj (still.symm.trans hbeats)
    refine ⟨_, .new request.path request.interest seen, made, ?_, fun _ _ => ?_⟩
    · exact (key?_register _ _ _ _ _ _).trans (if_pos next)
    · show w.look (s.play beats).space request.path = .ok seen
      rw [(Stands.play s beats).space]
      exact found
  | @look s there opened working =>
    obtain ⟨key, hk⟩ : ∃ key, s.key? k = some key :=
      ⟨_, Array.getElem?_eq_getElem ((hw.orderly n s there).exists_of k (.inr (.inr working)))⟩
    exact by_worker there hk
  | answer there opened known working found alone =>
    obtain ⟨t, next, ht, hn, -⟩ := run_rests there known alone
    exact by_worker ht hn

/-- and it remembers that until its worker has looked again -/
theorem Sighting.lasts (h : w.Sighting n k delay m) {later : List Move} (alone : ∀ x ∈ later, ¬x.LooksAt n k)
    {s : WatchService} {key : WatchKey} (hs : (((w.run delay).after m).run later).services[n]? = some s)
    (hk : s.key? k = some key) (hv : key.valid = true) (hc : s.isClosed = false) :
    w.look s.space key.path = .ok key.lastSeen := by
  obtain ⟨t, old, ht, hold, hremembers⟩ := h.remembered hw
  obtain ⟨s', key', hs', hk', rests⟩ := run_rests ht hold alone
  obtain rfl := Option.some.inj (hs.symm.trans hs')
  obtain rfl := Option.some.inj (hk.symm.trans hk')
  obtain ⟨hvalid, hopen⟩ := ((hw.run delay).after m).wanted_before ht hold later hs hk hv hc
  rw [rests.space, rests.path, rests.lastSeen]
  exact hremembers hvalid hopen

end Looks

/-- **The watcher of a directory notices the changes of its structure and no others.** Take two looks at a key, one
after the other, for a path that ends in the tree of the namespace both times, and let the key be valid, not signalled,
and interested in modifications as the later look comes to its end. Then the later look tells of a modification exactly
if it began at another vertex than the earlier one, or a directory was made in the vertex or taken out of it, or it was
renamed, after the earlier look began and before the later one did. And otherwise it tells nothing. -/
theorem structural_changes_noticed (clock : Time) (before delay between wait : List Move) {m last : Move} {w v : World}
    (hrun : w = (World.new clock).run before) (hon : v = w.run (delay ++ m :: between)) {n : Nat} {k : KeyId}
    (first : w.Sighting n k delay m) (alone : ∀ x ∈ between, ¬x.LooksAt n k) (second : v.Sighting n k wait last)
    {s : WatchService} {key : WatchKey} (hs : (v.run wait).services[n]? = some s) (hk : s.key? k = some key)
    (hvalid : key.valid = true) (hunsignalled : key.signalled = false) (hinterest : .modified ∈ key.interest)
    {a b : NodeId} (ha : w.Shows s.space key.path a) (hb : v.Shows s.space key.path b) :
    ∃ t, ((v.run wait).after last).services[n]? = some t ∧
      (s.Tells k key .modified t ↔ a ≠ b ∨ w.TouchedIn s.space a (delay ++ m :: between)) ∧
      (¬(a ≠ b ∨ w.TouchedIn s.space a (delay ++ m :: between)) → s.Silences k key t) := by
  have hw : w.Sound := hrun ▸ run_sound clock before
  have hv : v.Sound := hon ▸ hw.run _
  have hopen : s.isClosed = false := by
    refine Bool.eq_false_iff.2 fun hc => ?_
    rw [second.settled hv hs hk hc hvalid] at hunsignalled
    cases hunsignalled
  -- the key remembers what the earlier look found
  have earlier : w.look s.space key.path = .ok key.lastSeen := by
    have hv' : v.run wait = ((w.run delay).after m).run (between ++ wait) := by
      rw [run_append, hon]
      exact congrArg (run · wait) (run_append w delay (m :: between))
    refine first.lasts hw (fun x hx => ?_) (hv' ▸ hs) hk hvalid hopen
    exact (List.mem_append.1 hx).elim (alone x) (second.alone hs hk x)
  -- both looks find the times of vertices
  obtain ⟨ns, -, hns, -⟩ := id ha
  obtain ⟨later, -, hlater, -⟩ := id hb
  obtain ⟨τ, hτ, hlook⟩ := look_of_shows hns (hw.stacked _ _ hns) ha
  obtain ⟨σ, hσ, hlook'⟩ := look_of_shows hlater (hv.stacked _ _ hlater) hb
  have hlast : key.lastSeen = some τ := Except.ok.inj (earlier.symm.trans hlook)
  obtain ⟨seen, hseen, hafter⟩ := second.observes hv hs hk hvalid hopen
  obtain rfl := Except.ok.inj (hseen.symm.trans hlook')
  have dated : w.Dated := hrun ▸ run_dated clock before
  have differs := (hw.aged_run hns (delay ++ m :: between) (hon ▸ hlater)).differs (dated _ _ hns) hτ hσ
  obtain ⟨tells, silences⟩ := observe_times hk hvalid hopen hunsignalled hinterest hlast σ
  refine ⟨_, hafter, tells.trans differs, fun h => silences ?_⟩
  exact not_not.1 fun hne => h (differs.1 hne)

/-- the directory `/a/b`, with a child, a volume to be mounted, and a watch service -/
def settled : List Move :=
  [.outside (.empty 0) #[.memory (.empty 0)] 0, .createNamespace {},
    .operate 1 (.createDirectories ⟨⟨1, ["a", "b", "c"]⟩, rfl⟩), .watch 1]

/-- the directory is covered and uncovered, the one above it has another name for a while, and its child gets a child -/
def elsewhere : List Move :=
  [.operate 1 (.mount ⟨.volume 0, .rootPath⟩ ⟨⟨1, ["a", "b"]⟩, rfl⟩), .operate 1 (.unmount ⟨⟨1, ["a", "b"]⟩, rfl⟩),
    .operate 1 (.rename pathA ⟨⟨1, ["z"]⟩, rfl⟩), .operate 1 (.createDirectory ⟨⟨1, ["z", "b", "c", "d"]⟩, rfl⟩),
    .operate 1 (.rename ⟨⟨1, ["z"]⟩, rfl⟩ pathA)]

/-- the watcher of the directory registers, and then all this happens -/
def unseen : List Move := [] ++ .register 0 ⟨1, ["a", "b"]⟩ [.modified] :: elsewhere

/-- Nothing of this touches the directory, and its watcher is told nothing. -/
theorem elsewhere_unnoticed : ∃ s t, (((new 0).run settled).run unseen).services[0]? = some s ∧
    ((((new 0).run settled).run unseen).after (.look 0 0)).services[0]? = some t ∧
    ¬((new 0).run settled).TouchedIn s.space 2 unseen ∧
    s.Silences 0 (.new ⟨1, ["a", "b"]⟩ [.modified] (some 6)) t := by
  let s := ((((new 0).run settled).run unseen).services[0]?).get (by decide)
  have hs : (((new 0).run settled).run unseen).services[0]? = some s := (Option.some_get _).symm
  have hk : s.key? 0 = some (.new ⟨1, ["a", "b"]⟩ [.modified] (some 6)) := by decide
  have first : ((new 0).run settled).Sighting 0 0 [] (.register 0 ⟨1, ["a", "b"]⟩ [.modified]) :=
    .register (by decide)
  have second : (((new 0).run settled).run unseen).Sighting 0 0 [] (.look 0 0) := .look hs (by decide) (by decide)
  have alone : ∀ m ∈ elsewhere, ¬m.LooksAt 0 0 := by simp [elsewhere, Move.LooksAt]
  have before : ((new 0).run settled).Shows s.space ⟨1, ["a", "b"]⟩ 2 := by decide
  have after : (((new 0).run settled).run unseen).Shows s.space ⟨1, ["a", "b"]⟩ 2 := by decide
  have noticed := structural_changes_noticed 0 settled [] elsewhere [] (v := ((new 0).run settled).run unseen) rfl rfl
    first alone second (by rw [run_nil]; exact hs) hk rfl rfl (by decide) before after
  obtain ⟨t, ht, tells, silences⟩ := noticed
  rw [run_nil] at ht
  have quiet : (((((new 0).run settled).run unseen).after (.look 0 0)).services[0]?.bind (·.key? 0)).any
      WatchKey.signalled = false := by decide
  have untouched : ¬((2 : NodeId) ≠ 2 ∨ ((new 0).run settled).TouchedIn s.space 2 unseen) := by
    intro h
    obtain ⟨next, hn, hsignalled, -⟩ := tells.2 h
    rw [ht, Option.bind_some, hn, Option.any_some, hsignalled] at quiet
    cases quiet
  exact ⟨s, t, hs, ht, fun h => untouched (.inr h), silences untouched⟩

end World

end MountSpace

/-
The end of a key. A key ends when its holder gives it up, when its service is closed or dropped, or when its namespace
is closed; which closes the services on it first, so that no worker takes the refusals of a closed namespace for a path
that has gone. After the end there may still be a worker that sleeps or waits for an answer, and the key may stand in
the queue. But a worker that wakes finds the key unwanted and stops, an answer that comes late is remembered and not
told, and a reset is refused. So nothing is told any more, and what is left can only be read and be taken.

One thing goes on: a registration that waits for the state of its path as the service is closed. When the state comes,
the key is made, valid and live, with a worker that finds the service closed and stops. So the live table of a closed
service holds the keys that were made so late, and stays empty exactly if there are none.

- `nothing_after_the_end`: from the end on, in every run of the world, a key only fades, and what is left of its service
  are the keys that come late.
-/
import MountSpace.Proofs.World.Attending

namespace MountSpace

namespace WatchService

/-- nothing has come of a key, and nothing was taken back: it is signalled as it was, its events are there or were read,
and it was not queued again -/
structure Fades (s : WatchService) (k : KeyId) (key : WatchKey) (t : WatchService) (next : WatchKey) : Prop where
  valid : next.valid = true → key.valid = true
  signalled : next.signalled = key.signalled
  outbox : next.outbox = key.outbox ∨ next.outbox = []
  queued : t.ready.count k ≤ s.ready.count k
  isClosed : s.isClosed = true → t.isClosed = true

namespace Fades

variable {s mid t : WatchService} {k : KeyId} {key between next : WatchKey}

theorem refl (s : WatchService) (k : KeyId) (key : WatchKey) : s.Fades k key s key :=
  ⟨id, rfl, .inl rfl, le_rfl, id⟩

theorem trans (h : s.Fades k key mid between) (ht : mid.Fades k between t next) : s.Fades k key t next := by
  refine ⟨fun hv => h.valid (ht.valid hv), ht.signalled.trans h.signalled, ?_, ht.queued.trans h.queued,
    fun hc => ht.isClosed (h.isClosed hc)⟩
  rcases ht.outbox with ho | ho
  · rw [ho]
    exact h.outbox
  · exact .inr ho

end Fades

section Kept

variable {s t : WatchService} {k : KeyId} {key : WatchKey} {b : Beat}

/-- closing a service tells nothing -/
theorem close_fades (hk : s.key? k = some key) : ∃ next, s.close.key? k = some next ∧ s.Fades k key s.close next := by
  have ready : s.close.ready = s.ready := by
    cases hc : s.isClosed with
    | true => rw [close_closed hc]
    | false =>
      obtain ⟨keys, -, heq⟩ := close_eq hc
      rw [heq]
  rw [key?_close, hk]
  split
  · exact ⟨key.invalidate, rfl, fun hv => absurd hv Bool.false_ne_true, rfl, .inl rfl, by rw [ready], fun _ => isClosed_close s⟩
  · exact ⟨key, rfl, id, rfl, .inl rfl, by rw [ready], fun _ => isClosed_close s⟩

/-- giving a key up tells nothing -/
theorem cancel_fades (hk : s.key? k = some key) :
    ∃ next, (s.cancel k).key? k = some next ∧ next.valid = false ∧ s.Fades k key (s.cancel k) next := by
  have asked : s.cancel k = if !key.valid then s else { s.update k (·.invalidate) with live := s.live.filter (· ≠ k) } := by
    rw [cancel, hk]
    rfl
  cases hv : key.valid with
  | false =>
    rw [asked, if_pos (by simp [hv])]
    exact ⟨key, hk, hv, .refl s k key⟩
  | true =>
    rw [asked, if_neg (by simp [hv])]
    exact ⟨key.invalidate, key?_changed hk _, rfl, fun hv => absurd hv Bool.false_ne_true, rfl, .inl rfl, le_rfl, id⟩

/-- however a beat meets a key that is given up, or whose service is closed, the key fades -/
theorem Meets.fades (hk : s.key? k = some key) (ended : key.valid = false ∨ s.isClosed = true)
    (hm : s.Meets k key b t) : ∃ next, t.key? k = some next ∧ s.Fades k key t next := by
  have unwanted (valid : key.valid = true) (opened : s.isClosed = false) : False := by
    simp [valid, opened] at ended
  cases hm with
  | spared alone =>
    exact ⟨key, alone.key.trans hk, id, rfl, .inl rfl, alone.queued.le, fun hc => alone.isClosed.trans hc⟩
  | quit => exact ⟨key, hk, id, rfl, .inl rfl, le_rfl, id⟩
  | stale => exact ⟨key, hk, id, rfl, .inl rfl, le_rfl, id⟩
  | calm found working valid opened => exact (unwanted valid opened).elim
  | told found working valid opened => exact (unwanted valid opened).elim
  | late working gone remembers live ready isClosed =>
    exact ⟨_, remembers, id, rfl, .inl rfl, by rw [ready], fun hc => isClosed.trans hc⟩
  | handed asked opened first =>
    refine ⟨key, hk, id, rfl, .inl rfl, ?_, id⟩
    rw [first]
    exact List.count_le_count_cons
  | read => exact ⟨key.takeEvents.2, key?_changed hk _, id, rfl, .inr rfl, le_rfl, id⟩
  | reset valid opened => exact (unwanted valid opened).elim
  | cancel valid =>
    exact ⟨key.invalidate, key?_changed hk _, fun hv => absurd hv Bool.false_ne_true, rfl, .inl rfl, le_rfl, id⟩
  | close => exact close_fades hk

/-- a key of a closed service is live exactly if it was made after some moment and is valid, and then it was told
nothing -/
structure Lingers (since : Nat) (t : WatchService) (k : KeyId) (key : WatchKey) : Prop where
  live : k ∈ t.live ↔ since ≤ k ∧ key.valid = true
  untold : since ≤ k → key.signalled = false ∧ key.outbox = [] ∧ k ∉ t.ready

/-- however a beat meets a key of a closed service, it is live as long as it is valid, and it is told nothing -/
theorem Meets.lingers {since : Nat} {next : WatchKey} (hk : s.key? k = some key) (hc : s.isClosed = true)
    (h : Lingers since s k key) (hm : s.Meets k key b t) (hn : t.key? k = some next) : Lingers since t k next := by
  have unless_open (opened : s.isClosed = false) : False := by
    rw [hc] at opened
    cases opened
  cases hm with
  | spared alone =>
    rw [alone.key, hk] at hn
    cases hn
    exact ⟨alone.mem_live.trans h.live, fun hs => by rw [alone.mem_ready]; exact h.untold hs⟩
  | quit =>
    obtain rfl := Option.some.inj (hk.symm.trans hn)
    exact ⟨h.live, h.untold⟩
  | stale =>
    obtain rfl := Option.some.inj (hk.symm.trans hn)
    exact ⟨h.live, h.untold⟩
  | calm found working valid opened => exact (unless_open opened).elim
  | told found working valid opened => exact (unless_open opened).elim
  | late working gone remembers live ready isClosed =>
    obtain rfl := Option.some.inj (remembers.symm.trans hn)
    exact ⟨live ▸ h.live, ready ▸ h.untold⟩
  | handed asked opened => exact (unless_open opened).elim
  | read =>
    obtain rfl := eq_of_changed hk hn
    exact ⟨h.live, fun hs => ⟨(h.untold hs).1, rfl, (h.untold hs).2.2⟩⟩
  | reset valid opened => exact (unless_open opened).elim
  | cancel valid =>
    obtain rfl := eq_of_changed hk hn
    refine ⟨⟨fun hl => ?_, fun hv => absurd hv.2 Bool.false_ne_true⟩, h.untold⟩
    simpa using (List.mem_filter.1 hl).2
  | close opened => exact (unless_open opened).elim

end Kept

/-! ## What is left of a closed service -/

/-- what is left of a service that was closed: the keys that were made since and not given up are live, none of them has
been told anything, and nobody waits for a registration who did not wait then -/
structure Remains (s t : WatchService) : Prop where
  live : ∀ k, k ∈ t.live ↔ s.keys.size ≤ k ∧ ∃ key, t.key? k = some key ∧ key.valid = true
  untold : ∀ k key, s.keys.size ≤ k → t.key? k = some key → key.signalled = false ∧ key.outbox = [] ∧ k ∉ t.ready
  asked : t.asked.Sublist s.asked

section Closed

variable {s : WatchService} (hc : s.isClosed = true)
include hc

/-- in a closed service no registration begins -/
theorem asked_closed (b : Beat) : (s.beat b).asked.Sublist s.asked := by
  rw [asked_beat, hc]
  cases b with
  | enroll request => exact List.erase_sublist
  | withdraw request => exact List.erase_sublist
  | _ => exact .refl _

/-- a key that is made in a closed service has been asked for before -/
theorem Makes.late_of_closed {t : WatchService} {b : Beat} {request : WatchRequest} {seen : Option Time}
    (made : s.Makes b request seen t) : (∃ now, b = .enroll request seen now) ∧ request ∈ s.asked := by
  cases made with
  | atOnce opened =>
    rw [hc] at opened
    cases opened
  | late asked => exact ⟨⟨_, rfl⟩, asked⟩

theorem lingers_beat {since : Nat} (horderly : s.Orderly) (hsince : since ≤ s.keys.size)
    (h : ∀ k key, s.key? k = some key → Lingers since s k key) (b : Beat) {k : KeyId} {next : WatchKey}
    (hn : (s.beat b).key? k = some next) : Lingers since (s.beat b) k next := by
  cases hk : s.key? k with
  | some key => exact (beat_meets hk b).lingers hk hc (h k key hk) hn
  | none =>
    obtain ⟨request, seen, made, rfl, rfl⟩ := beat_born hk hn
    obtain ⟨asked, now, heq⟩ := made.registers
    rw [heq]
    have fresh : s.keys.size ∉ s.ready := fun hq => Nat.lt_irrefl _ (horderly.exists_of _ (.inr (.inl hq)))
    have live : s.keys.size ∈ s.live ++ [s.keys.size] := List.mem_append_right _ (List.mem_singleton_self _)
    exact ⟨⟨fun _ => ⟨hsince, rfl⟩, fun _ => live⟩, fun _ => ⟨rfl, rfl, fresh⟩⟩

/-- what a run of a closed service leaves of it -/
theorem play_lingers {since : Nat} (horderly : s.Orderly) (hsince : since ≤ s.keys.size)
    (h : ∀ k key, s.key? k = some key → Lingers since s k key) (beats : List Beat) :
    (s.play beats).asked.Sublist s.asked ∧
      ∀ k key, (s.play beats).key? k = some key → Lingers since (s.play beats) k key := by
  induction beats generalizing s with
  | nil => exact ⟨.refl _, h⟩
  | cons b rest ih =>
    obtain ⟨asked, keys⟩ := ih ((Stands.beat s b).isClosed hc) (horderly.beat b) (hsince.trans (s.le_size_beat b))
      fun k next hn => lingers_beat hc horderly hsince h b hn
    exact ⟨asked.trans (asked_closed hc b), keys⟩

end Closed

/-- **What is left of a service after it was closed**, whatever comes then. -/
theorem close_remains {s : WatchService} (horderly : s.Orderly) (hopen : s.isClosed = false) (beats : List Beat) :
    s.Remains (s.close.play beats) := by
  obtain ⟨keys, hsize, heq⟩ := close_eq hopen
  have emptied (k : KeyId) : k ∉ s.close.live := by simp [heq]
  have none_since : ∀ k key, s.close.key? k = some key → Lingers s.keys.size s.close k key := by
    intro k key hk
    have old : k < s.keys.size := hsize ▸ (show s.close.keys.size = keys.size by rw [heq]) ▸ key?_lt hk
    exact ⟨⟨fun hl => absurd hl (emptied k), fun h => absurd h.1 (Nat.not_le.2 old)⟩,
      fun h => absurd h (Nat.not_le.2 old)⟩
  have sized : s.keys.size ≤ s.close.keys.size := by rw [heq, hsize]
  obtain ⟨asked, lingers⟩ := play_lingers (isClosed_close s) horderly.close sized none_since beats
  have ordered : (s.close.play beats).Orderly := horderly.close.play beats
  refine ⟨fun k => ⟨fun hl => ?_, ?_⟩, fun k key hs hk => (lingers k key hk).untold hs, s.asked_close ▸ asked⟩
  · have there := Array.getElem?_eq_getElem (ordered.exists_of k (.inl hl))
    obtain ⟨hs, hv⟩ := (lingers k _ there).live.1 hl
    exact ⟨hs, _, there, hv⟩
  · rintro ⟨hs, key, hk, hv⟩
    exact (lingers k key hk).live.2 ⟨hs, hv⟩

end WatchService

namespace World

open WatchService

/-- a key has ended: it was given up, or its service is closed, or its namespace -/
def Ended (w : World) (n : Nat) (k : KeyId) : Prop :=
  ∃ s key, w.services[n]? = some s ∧ s.key? k = some key ∧
    (key.valid = false ∨ s.isClosed = true ∨ ¬w.IsOpen s.space)

/-- a move closes a service that is open, by itself or with its namespace -/
def Closes (w : World) (n : Nat) (m : Move) : Prop :=
  ∃ s, w.services[n]? = some s ∧ s.isClosed = false ∧ (m = .close n ∨ m = .closeNamespace s.space ∨
    ∃ name, m = .unregister name ∧ w.registry.lookup name = some s.space)

/-- a move is the end of a key: its holder gives it up, or its service is closed -/
def Ends (w : World) (n : Nat) (k : KeyId) (m : Move) : Prop :=
  ∃ s key, w.services[n]? = some s ∧ s.key? k = some key ∧ (m = .cancel n k ∨ w.Closes n m)

/-- a service was closed, all that is asked of it is refused, and nothing is left of it but what was under way -/
structure Shut (w : World) (n : Nat) (s : WatchService) : Prop where
  closed : ∃ t, w.services[n]? = some t ∧ t.isClosed = true ∧ t.poll.1 = none ∧ t.take.1 = .error .closed ∧ s.Remains t
  awaitKey : (w.awaitKey n).1 = .error .closed
  ask : ∀ request, (w.ask n request).1 = .error .closed
  register : ∀ path interest, (w.register n path interest).1 = .error .closed

/-- nothing is live in a service -/
def Deserted (w : World) (n : Nat) : Prop := ∀ s, w.services[n]? = some s → s.live = []

/-- no registration with a service that is under way comes to its end in some moves -/
def NoneLate (w : World) (n : Nat) (moves : List Move) : Prop :=
  ∀ done request seen, done ++ [.enroll n request seen] <+: moves →
    ∀ s, (w.run done).services[n]? = some s → request ∉ s.asked

/-- nothing has come of a key from one world to another, and nothing will -/
structure Silent (w v : World) (n : Nat) (k : KeyId) : Prop where
  fades : ∃ s key t next, w.services[n]? = some s ∧ s.key? k = some key ∧ v.services[n]? = some t ∧
    t.key? k = some next ∧ s.Fades k key t next
  reset : (v.reset n k).1 = false
  ended : v.Ended n k

section Ends

variable {w : World} {n : Nat} {k : KeyId}

theorem shut_of_closed {s t : WatchService} (ht : w.services[n]? = some t) (hc : t.isClosed = true)
    (remains : s.Remains t) : w.Shut n s := by
  have taken : t.take = (.error .closed, t) := if_pos hc
  have asked (request : WatchRequest) : w.ask n request = (.error .closed, w) := by simp [World.ask, ht, hc]
  refine ⟨⟨t, ht, hc, ?_, ?_, remains⟩, ?_, fun request => ?_, fun path interest => ?_⟩
  · rw [WatchService.poll, if_pos hc]
  · rw [taken]
  · simp [awaitKey, ht, hc, taken]
  · rw [asked]
  · rw [World.register, asked]

theorem reset_refused {s : WatchService} {key : WatchKey} (hs : w.services[n]? = some s) (hk : s.key? k = some key)
    (ended : key.valid = false ∨ s.isClosed = true) : (w.reset n k).1 = false := by
  rw [World.reset, hs]
  rcases ended with hv | hc
  · simp [WatchService.reset, hk, hv]
  · simp [WatchService.reset, hk, hc]

theorem Silent.of_fades {v : World} {s t : WatchService} {key next : WatchKey} (hs : w.services[n]? = some s)
    (hk : s.key? k = some key) (ht : v.services[n]? = some t) (hn : t.key? k = some next)
    (h : s.Fades k key t next) (ended : next.valid = false ∨ t.isClosed = true) : w.Silent v n k :=
  ⟨⟨s, key, t, next, hs, hk, ht, hn, h⟩, reset_refused ht hn ended, t, next, ht, hn, ended.imp_right .inl⟩

theorem Silent.trans {mid v : World} (h : w.Silent mid n k) (hv : mid.Silent v n k) : w.Silent v n k := by
  obtain ⟨s, key, t, next, hs, hk, ht, hn, hfades⟩ := h.fades
  obtain ⟨t', next', u, last, ht', hn', hu, hl, hlater⟩ := hv.fades
  obtain rfl := Option.some.inj (ht.symm.trans ht')
  obtain rfl := Option.some.inj (hn.symm.trans hn')
  exact ⟨⟨s, key, u, last, hs, hk, hu, hl, hfades.trans hlater⟩, hv.reset, hv.ended⟩

variable (hw : w.Sound)
include hw

/-- a key of a closed namespace is a key of a closed service -/
theorem Sound.ended_cases {s : WatchService} {key : WatchKey} (hs : w.services[n]? = some s)
    (h : key.valid = false ∨ s.isClosed = true ∨ ¬w.IsOpen s.space) : key.valid = false ∨ s.isClosed = true := by
  rcases h with hv | hc | ho
  · exact .inl hv
  · exact .inr hc
  · obtain ⟨ns, hns, hopen⟩ := hw.hosted n s hs
    refine .inr (Bool.not_eq_false _ ▸ fun hc => ho ⟨ns, hns, hopen hc⟩)

/-- what one move does to a key that has ended -/
theorem Sound.silent_after (h : w.Ended n k) (m : Move) : w.Silent (w.after m) n k := by
  obtain ⟨s, key, hs, hk, hover⟩ := h
  have ended := hw.ended_cases hs hover
  have faded : ∃ next, (s.play (w.beat? n s m).toList).key? k = some next ∧
      s.Fades k key (s.play (w.beat? n s m).toList) next := by
    cases w.beat? n s m with
    | none => exact ⟨key, hk, .refl s k key⟩
    | some b => exact (beat_meets hk b).fades hk ended
  obtain ⟨next, hn, hfades⟩ := faded
  refine .of_fades hs hk (services_after hs m) hn hfades ?_
  exact ended.imp (fun hv => Bool.eq_false_iff.2 fun ht => by simp [hfades.valid ht] at hv) hfades.isClosed

theorem Sound.silent_run (h : w.Ended n k) (moves : List Move) : w.Silent (w.run moves) n k := by
  induction moves generalizing w with
  | nil =>
    obtain ⟨s, key, hs, hk, hover⟩ := h
    exact .of_fades hs hk hs hk (.refl s k key) (hw.ended_cases hs hover)
  | cons m rest ih =>
    have first := hw.silent_after h m
    exact first.trans (ih (hw.after m) first.ended)

/-- a closing closes the service, if it was not closed before -/
theorem Sound.services_closed {m : Move} {s : WatchService} (hs : w.services[n]? = some s) (h : w.Closes n m) :
    (w.after m).services[n]? = some s.close := by
  obtain ⟨ns, hns, hopen⟩ := hw.hosted n s hs
  have closed : (if w.IsOpen s.space then s.close else s) = s.close := by
    split
    · rfl
    · next ho =>
      cases hc : s.isClosed with
      | true => exact (close_closed hc).symm
      | false => exact absurd ⟨ns, hns, hopen hc⟩ ho
  obtain ⟨same, hsame, -, rfl | rfl | ⟨name, rfl, hname⟩⟩ := h
  · rw [services_after hs, beat?, if_pos rfl]
    rfl
  · obtain rfl := Option.some.inj (hs.symm.trans hsame)
    rw [World.after, services_closing hs]
    simpa using closed
  · obtain rfl := Option.some.inj (hs.symm.trans hsame)
    rw [World.after, services_unregister hs]
    simpa [hname] using closed

/-- nothing comes of a key in the move that ends it -/
theorem Sound.silent_end {m : Move} (h : w.Ends n k m) : w.Silent (w.after m) n k := by
  obtain ⟨s, key, hs, hk, rfl | hcloses⟩ := h
  · obtain ⟨next, hn, hv, hfades⟩ := cancel_fades hk
    have cancelled := services_after hs (.cancel n k)
    rw [beat?, if_pos rfl] at cancelled
    exact .of_fades hs hk cancelled hn hfades (.inl hv)
  · obtain ⟨next, hn, hfades⟩ := close_fades hk
    exact .of_fades hs hk (hw.services_closed hs hcloses) hn hfades (.inr (isClosed_close s))

/-- no key is made in a closed service if no registration that is under way comes to its end -/
theorem Sound.size_closed {m : Move} {s : WatchService} (hs : w.services[n]? = some s) (hopen : s.isClosed = false)
    (h : w.Closes n m) {later done : List Move} (none : (w.after m).NoneLate n later) (hpre : done <+: later)
    {t : WatchService} (ht : ((w.after m).run done).services[n]? = some t) : t.keys.size = s.keys.size := by
  induction done using List.reverseRecOn generalizing t with
  | nil =>
    obtain rfl := Option.some.inj ((hw.services_closed hs h).symm.trans ht)
    obtain ⟨keys, hsize, heq⟩ := close_eq hopen
    rw [heq]
    exact hsize
  | append_singleton done x ih =>
    have earlier : done <+: later := (List.prefix_append done [x]).trans hpre
    obtain ⟨beats, hmid⟩ := services_run (hw.services_closed hs h) done
    have closed : (s.close.play beats).isClosed = true := (Stands.play _ beats).isClosed (isClosed_close s)
    have before := ih earlier hmid
    rw [World.run_append] at ht
    obtain rfl := Option.some.inj ((services_after hmid x).symm.trans ht)
    cases hb : ((w.after m).run done).beat? n (s.close.play beats) x with
    | none => exact before
    | some b =>
      obtain ⟨request, seen, made⟩ | hsame := (s.close.play beats).size_beat b
      · obtain ⟨⟨now, rfl⟩, asked⟩ := made.late_of_closed closed
        cases arises hb with
        | enroll => exact absurd asked (none done request seen hpre _ hmid)
      · exact hsame.trans before

/-- the live table of a closed service stays empty exactly if no registration that is under way comes to its end -/
theorem Sound.deserted_iff {m : Move} {s : WatchService} (hs : w.services[n]? = some s) (hopen : s.isClosed = false)
    (h : w.Closes n m) (later : List Move) :
    (∀ done, done <+: later → ((w.after m).run done).Deserted n) ↔ (w.after m).NoneLate n later := by
  have horderly := hw.orderly n s hs
  have left (done : List Move) : ∃ t, ((w.after m).run done).services[n]? = some t ∧ t.isClosed = true ∧ s.Remains t := by
    obtain ⟨beats, ht⟩ := services_run (hw.services_closed hs h) done
    exact ⟨_, ht, (Stands.play _ beats).isClosed (isClosed_close s), close_remains horderly hopen beats⟩
  constructor
  · intro deserted done request seen hpre t ht asked
    -- the key that is made is live
    have made := services_after ht (.enroll n request seen)
    rw [beat?, if_pos rfl] at made
    have last : ((w.after m).run (done ++ [.enroll n request seen])).services[n]? =
        some (t.beat (.enroll request seen ((w.after m).run done).elapsed)) := by
      rw [World.run_append]
      exact made
    have empty := deserted _ hpre _ last
    rw [beat, if_pos asked] at empty
    exact List.append_ne_nil_of_right_ne_nil t.live (List.cons_ne_nil _ _) empty
  · intro none done hpre t ht
    have same : t.keys.size = s.keys.size := hw.size_closed hs hopen h none hpre ht
    obtain ⟨t', ht', -, remains⟩ := left done
    obtain rfl := Option.some.inj (ht.symm.trans ht')
    refine List.eq_nil_iff_forall_not_mem.2 fun k hl => ?_
    obtain ⟨late, key, hk, -⟩ := (remains.live k).1 hl
    exact absurd (key?_lt hk) (same ▸ Nat.not_lt.2 late)

end Ends

/-- **Nothing fires after the end.** In every run, from the move on that ends a key, whatever that is and whatever comes
then, nothing comes of the key any more; the same holds of a key once it is invalid or its service or namespace is
closed. From the move on that closes a service, by itself or with its namespace, the service refuses everything, and
what is live in it are the keys that were asked for before and made since. So nothing is live in it any more exactly if
no registration that is under way comes to its end. -/
theorem nothing_after_the_end (clock : Time) (before later : List Move) (n : Nat) (k : KeyId) :
    let w := (World.new clock).run before
    (∀ m, w.Ends n k m → w.Silent ((w.after m).run later) n k) ∧
    (w.Ended n k → w.Silent (w.run later) n k) ∧
    ∀ m s, w.Closes n m → w.services[n]? = some s → ((w.after m).run later).Shut n s ∧
      ((∀ done, done <+: later → ((w.after m).run done).Deserted n) ↔ (w.after m).NoneLate n later) := by
  intro w
  have hw : w.Sound := run_sound clock before
  refine ⟨fun m hm => ?_, fun h => hw.silent_run h later, fun m s hm hs => ?_⟩
  · have first := hw.silent_end hm
    exact first.trans ((hw.after m).silent_run first.ended later)
  · obtain ⟨same, hsame, hopen, -⟩ := id hm
    obtain rfl := Option.some.inj (hs.symm.trans hsame)
    obtain ⟨beats, hlast⟩ := services_run (hw.services_closed hs hm) later
    have closed : (s.close.play beats).isClosed = true := (Stands.play _ beats).isClosed (isClosed_close s)
    refine ⟨shut_of_closed hlast closed (close_remains (hw.orderly n s hs) hopen beats), ?_⟩
    exact hw.deserted_iff hs hopen hm later

/-- a directory is watched for its deletion -/
def watching : List Move :=
  [.createNamespace {}, .operate 1 (.createDirectory pathA), .watch 1, .register 0 ⟨1, ["a"]⟩ [.deleted]]

/-- The namespace is closed while a worker waits for an answer, and then the worker learns that nothing is there. -/
theorem closing_deletes_nothing :
    let w := (new 0).run watching
    w.Silent ((w.after (.closeNamespace 1)).run [.answer 0 0 none, .look 0 0]) 0 0 ∧
      ∃ s, w.services[0]? = some s ∧ ((w.after (.closeNamespace 1)).run [.answer 0 0 none, .look 0 0]).Shut 0 s := by
  intro w
  have hs : w.services[0]? = some ((w.services[0]?).get (by decide)) := (Option.some_get _).symm
  have hk : ((w.services[0]?).get (by decide)).key? 0 =
      some ⟨⟨1, ["a"]⟩, [.deleted], some 1, [], false, true⟩ := by decide
  have closes : w.Closes 0 (.closeNamespace 1) := ⟨_, hs, by decide, .inr (.inl rfl)⟩
  obtain ⟨ends, -, closed⟩ := nothing_after_the_end 0 watching [.answer 0 0 none, .look 0 0] 0 0
  exact ⟨ends _ ⟨_, _, hs, hk, .inr closes⟩, _, hs, (closed _ _ closes hs).1⟩

/-- the watcher of a directory -/
def watcher : WatchRequest := ⟨⟨1, ["a"]⟩, [.deleted]⟩

/-- a registration for a directory waits for its state -/
def asking : List Move := [.createNamespace {}, .operate 1 (.createDirectory pathA), .watch 1, .ask 0 watcher]

/-- The service is closed while a registration waits for the state of its path. Then the state comes, and the key is
made: it is live and valid, and its worker stops. So a closed service can have live keys. -/
theorem late_key_lives :
    let w := (new 0).run asking
    w.look 1 watcher.path = .ok (some 1) ∧
    (∃ s, ((w.after (.close 0)).run [.enroll 0 watcher (some 1), .look 0 0]).services[0]? = some s ∧ s.isClosed = true ∧
      s.live = [0] ∧ s.workers = [] ∧ s.key? 0 = some (.new watcher.path watcher.interest (some 1))) ∧
    ¬∀ (before later : List Move) (n : Nat) (m : Move), ((new 0).run before).Closes n m →
      ((((new 0).run before).after m).run later).Deserted n := by
  intro w
  have last : ∃ s, ((w.after (.close 0)).run [.enroll 0 watcher (some 1), .look 0 0]).services[0]? = some s ∧
      s.isClosed = true ∧ s.live = [0] ∧ s.workers = [] ∧
      s.key? 0 = some (.new watcher.path watcher.interest (some 1)) :=
    ⟨_, (Option.some_get (by decide)).symm, by decide⟩
  refine ⟨by decide, last, fun claim => ?_⟩
  obtain ⟨s, hs, -, live, -⟩ := last
  have closes : w.Closes 0 (.close 0) := ⟨_, (Option.some_get (by decide)).symm, by decide, .inl rfl⟩
  have empty := claim asking _ 0 (.close 0) closes s hs
  rw [live] at empty
  cases empty

/-- a directory of one namespace is watched through another one, in which the first is mounted -/
def watchingInside : List Move :=
  [.createNamespace {}, .createNamespace {}, .operate 2 (.createDirectory ⟨⟨2, ["a"]⟩, rfl⟩),
    .operate 1 (.createDirectory pathA), .operate 1 (.mount ⟨.space 2, .rootPath⟩ pathA), .watch 1,
    .register 0 ⟨1, ["a", "a"]⟩ [.deleted]]

-- Only keys of the closed namespace end with it: the others take its refusals for a deletion.
example : (((((new 0).run watchingInside).run [.closeNamespace 2, .look 0 0]).services[0]?.bind (·.key? 0)).map
    WatchKey.outbox) = some [⟨.deleted, ⟨1, ["a", "a"]⟩, 1⟩] := by decide +kernel

end World

end MountSpace

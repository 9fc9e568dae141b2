/-
A look takes time. A worker first makes sure that its key is wanted, then asks for the state of the path, and while it
waits anything may happen to the key or the service. When the answer comes, the key remembers it in any case, and is
signalled only if it is still wanted then (`conclude`). A look whose answer comes at once is the look of `observe`
(`observe_eq`).

A registration takes time as well: it begins in an open service, and its key is made when the state of its path is
there, even if the service was closed in between (`enroll`).

A run in which looks take time is made of acts, of answers, and of registrations that begin and come to their ends
(`Beat`). Answers may come whenever a key has a worker, which covers every look that began before. What a beat can do to
one key is said once, in `Meets`, and all that beats keep is derived from it, case by case.

- `beat_meets`: every beat meets a key in one of eleven ways;
- `beat_born`: a key comes by a registration, at once or late (`Makes`);
- `asked_beat`: the registrations that are under way;
- `play_orderly`: the books of a service are in order also if looks take time.
-/
import MountSpace.Proofs.Watch.Delivery

namespace MountSpace

namespace WatchService

/-- the answer to a look has come, and the worker goes on or stops -/
def conclude (s : WatchService) (k : KeyId) (seen : Option Time) : WatchService :=
  match s.key? k with
  | none => s
  | some key =>
    let looked := s.update k (·.see seen)
    if key.events seen = [] then looked
    else if key.valid && !s.isClosed then (looked.signal k (key.events seen)).retire k
    else looked.retire k

/-- a look is a check and, if the key is wanted, an answer -/
theorem observe_eq (s : WatchService) (k : KeyId) (seen : Option Time) :
    s.observe k seen =
      if (s.key? k).any (fun key => !key.valid || s.isClosed) then s.retire k else s.conclude k seen := by
  unfold observe conclude
  cases s.key? k with
  | none => rfl
  | some key =>
    cases hv : key.valid with
    | false => simp [hv]
    | true => cases s.isClosed <;> simp [hv]

/-- what can happen to a service, where looks take time -/
inductive Beat where
  | act (act : Act)
  /-- the answer to a look that the worker of a key began before -/
  | answer (k : KeyId) (seen : Option Time)
  /-- a registration begins -/
  | ask (request : WatchRequest)
  /-- a registration that began before learns the state of its path -/
  | enroll (request : WatchRequest) (seen : Option Time) (now : Nat)
  /-- a registration that began before comes to nothing -/
  | withdraw (request : WatchRequest)
  deriving DecidableEq

/-- the service after a beat -/
def beat (s : WatchService) : Beat → WatchService
  | .act act => s.after act
  | .answer k seen => if s.Working k then s.conclude k seen else s
  | .ask request => s.ask request
  | .enroll request seen now => if request ∈ s.asked then (s.enroll request seen now).2 else s
  | .withdraw request => s.withdraw request

/-- the service after some beats -/
def play (s : WatchService) (beats : List Beat) : WatchService := beats.foldl beat s

theorem play_append (s : WatchService) (before later : List Beat) :
    s.play (before ++ later) = (s.play before).play later :=
  List.foldl_append

/-- what a look finds, if a beat is a look at this key -/
def Beat.found? (k : KeyId) : Beat → Option (Option Time)
  | .act (.look j seen) | .answer j seen => if j = k then some seen else none
  | _ => none

/-- the key whose worker makes a beat -/
def Beat.worker? : Beat → Option KeyId
  | .act (.look k _) | .act (.quit k) | .answer k _ => some k
  | _ => none

theorem Beat.worker?_of_found {b : Beat} {k : KeyId} {seen : Option Time} (h : b.found? k = some seen) :
    b.worker? = some k := by
  cases b with
  | ask => cases h
  | enroll => cases h
  | withdraw => cases h
  | answer j other =>
    rw [found?] at h
    split at h
    · next hj => exact congrArg some hj
    · cases h
  | act act =>
    cases act with
    | look j other =>
      rw [found?] at h
      split at h
      · next hj => exact congrArg some hj
      · cases h
    | _ => cases h

/-! ## Keys that are changed, and keys that are left alone -/

section Changed

variable {s : WatchService} {k : KeyId} {key : WatchKey} (hk : s.key? k = some key)
include hk

/-- a key that is there, changed in place -/
theorem key?_changed (f : WatchKey → WatchKey) : (s.update k f).key? k = some (f key) := by
  rw [key?_update_self, hk]
  rfl

theorem eq_of_changed {f : WatchKey → WatchKey} {next : WatchKey} (hn : (s.update k f).key? k = some next) :
    next = f key :=
  Option.some.inj (hn.symm.trans (key?_changed hk f))

end Changed

/-- nothing happened to a key -/
structure Leaves (s : WatchService) (k : KeyId) (t : WatchService) : Prop where
  key : t.key? k = s.key? k
  live : t.live.count k = s.live.count k
  queued : t.ready.count k = s.ready.count k
  working : t.Working k ↔ s.Working k
  isClosed : t.isClosed = s.isClosed

namespace Leaves

variable {s mid t : WatchService} {k j : KeyId}

theorem refl (s : WatchService) (k : KeyId) : s.Leaves k s := ⟨rfl, rfl, rfl, Iff.rfl, rfl⟩

theorem trans (h : s.Leaves k mid) (ht : mid.Leaves k t) : s.Leaves k t :=
  ⟨ht.key.trans h.key, ht.live.trans h.live, ht.queued.trans h.queued, ht.working.trans h.working,
    ht.isClosed.trans h.isClosed⟩

theorem mem_live (h : s.Leaves k t) : k ∈ t.live ↔ k ∈ s.live := by
  rw [← List.count_pos_iff, h.live, List.count_pos_iff]

theorem mem_ready (h : s.Leaves k t) : k ∈ t.ready ↔ k ∈ s.ready := by
  rw [← List.count_pos_iff, h.queued, List.count_pos_iff]

theorem update (h : k ≠ j) (f : WatchKey → WatchKey) : s.Leaves k (s.update j f) :=
  ⟨key?_update_ne _ _ _ _ h, rfl, rfl, Iff.rfl, rfl⟩

theorem retire (h : k ≠ j) : s.Leaves k (s.retire j) :=
  ⟨rfl, rfl, rfl, (working_retire _ _ _).trans (and_iff_left h), rfl⟩

theorem start (h : k ≠ j) (now : Nat) : s.Leaves k (s.start j now) := by
  refine ⟨rfl, ?_, rfl, (working_start _ _ _ _).trans (or_iff_left h), rfl⟩
  show (s.live ++ [j]).count k = _
  rw [List.count_append, List.count_singleton, if_neg (by simpa using h.symm), Nat.add_zero]

theorem dropped (h : k ≠ j) (f : WatchKey → WatchKey) :
    s.Leaves k { s.update j f with live := s.live.filter (· ≠ j) } :=
  ⟨key?_update_ne _ _ _ _ h, List.count_filter (by simpa using h), rfl, Iff.rfl, rfl⟩

theorem signal (h : k ≠ j) (events : List WatchEvent) : s.Leaves k (s.signal j events) := by
  obtain ⟨hkey, hlive, -, hworking, hclosed⟩ := dropped (s := s) h (·.signal events)
  refine ⟨hkey, hlive, ?_, hworking, hclosed⟩
  show (s.ready ++ [j]).count k = _
  rw [List.count_append, List.count_singleton, if_neg (by simpa using h.symm), Nat.add_zero]

theorem conclude (h : k ≠ j) (seen : Option Time) : s.Leaves k (s.conclude j seen) := by
  unfold WatchService.conclude
  split
  · exact .refl s k
  · split
    · exact .update h _
    · split
      · exact ((Leaves.update h _).trans (.signal h _)).trans (.retire h)
      · exact (Leaves.update h _).trans (.retire h)

theorem observe (h : k ≠ j) (seen : Option Time) : s.Leaves k (s.observe j seen) := by
  rw [observe_eq]
  split
  · exact .retire h
  · exact .conclude h seen

theorem register {key : WatchKey} (hk : s.key? k = some key) (path : AbsolutePath) (interest : List EventKind)
    (seen : Option Time) (now : Nat) : s.Leaves k (s.register path interest seen now).2 := by
  have hne : k ≠ s.keys.size := Nat.ne_of_lt (key?_lt hk)
  obtain ⟨-, hlive, hqueued, hworking, hclosed⟩ := start (s := s) hne now
  exact ⟨by rw [key?_register, if_neg hne], hlive, hqueued, hworking, hclosed⟩

theorem withdraw (request : WatchRequest) : s.Leaves k (s.withdraw request) := ⟨rfl, rfl, rfl, Iff.rfl, rfl⟩

theorem ask (request : WatchRequest) : s.Leaves k (s.ask request) := by
  unfold WatchService.ask
  split
  · exact .refl s k
  · exact ⟨rfl, rfl, rfl, Iff.rfl, rfl⟩

theorem enroll {key : WatchKey} (hk : s.key? k = some key) (request : WatchRequest) (seen : Option Time) (now : Nat) :
    s.Leaves k (s.enroll request seen now).2 :=
  (withdraw request).trans (register (s := s.withdraw request) hk _ _ seen now)

theorem poll (h : s.poll.1 ≠ some k) : s.Leaves k s.poll.2 := by
  obtain hp | ⟨j, rest, -, hr, hp⟩ := poll_cases s
  · rw [hp]
    exact .refl s k
  · rw [hp] at h ⊢
    have hne : j ≠ k := fun heq => h (congrArg some heq)
    exact ⟨rfl, rfl, by rw [hr, List.count_cons_of_ne hne], Iff.rfl, rfl⟩

end Leaves

/-! ## What a beat does to a key -/

/-- what a beat does to a key, and the service after it -/
inductive Meets (s : WatchService) (k : KeyId) (key : WatchKey) : Beat → WatchService → Prop where
  /-- nothing, as most beats are about other keys -/
  | spared {b : Beat} {t : WatchService} (alone : s.Leaves k t) (blind : b.found? k = none ∨ ¬s.Working k)
      (unread : b ≠ .act (.read k)) : Meets s k key b t
  /-- its worker finds the namespace closed and stops -/
  | quit : Meets s k key (.act (.quit k)) (s.retire k)
  /-- its worker is about to look, finds that it is not wanted any more and stops -/
  | stale {seen : Option Time} (working : s.Working k) (gone : key.valid = false ∨ s.isClosed = true) :
      Meets s k key (.act (.look k seen)) (s.retire k)
  /-- its worker sees nothing of interest -/
  | calm {b : Beat} {seen : Option Time} (found : b.found? k = some seen) (working : s.Working k)
      (valid : key.valid = true) (opened : s.isClosed = false) (quiet : key.events seen = []) :
      Meets s k key b (s.update k (·.see seen))
  /-- its worker sees something of interest, signals it and stops -/
  | told {b : Beat} {seen : Option Time} (found : b.found? k = some seen) (working : s.Working k)
      (valid : key.valid = true) (opened : s.isClosed = false) (news : key.events seen ≠ []) :
      Meets s k key b (((s.update k (·.see seen)).signal k (key.events seen)).retire k)
  /-- the answer to a look of its worker comes when it is not wanted any more -/
  | late {seen : Option Time} {t : WatchService} (working : s.Working k)
      (gone : key.valid = false ∨ s.isClosed = true) (remembers : t.key? k = some (key.see seen))
      (live : t.live = s.live) (ready : t.ready = s.ready) (isClosed : t.isClosed = s.isClosed) :
      Meets s k key (.answer k seen) t
  /-- it is handed out -/
  | handed {b : Beat} {rest : List KeyId} (asked : b = .act .poll ∨ b = .act .take) (opened : s.isClosed = false)
      (first : s.ready = k :: rest) : Meets s k key b { s with ready := rest }
  /-- its pending events are taken out -/
  | read : Meets s k key (.act (.read k)) (s.update k fun key => key.takeEvents.2)
  /-- it is reset -/
  | reset {now : Nat} (valid : key.valid = true) (opened : s.isClosed = false) (signalled : key.signalled = true) :
      Meets s k key (.act (.reset k now)) ((s.update k (·.resume)).start k now)
  /-- its holder gives it up -/
  | cancel (valid : key.valid = true) :
      Meets s k key (.act (.cancel k)) { s.update k (·.invalidate) with live := s.live.filter (· ≠ k) }
  /-- the service is closed -/
  | close (opened : s.isClosed = false) : Meets s k key (.act .close) s.close

section Beats

variable {s : WatchService} {k : KeyId} {key : WatchKey} (hk : s.key? k = some key)
include hk

/-- a look at a key that is wanted, whether its answer comes at once or later -/
theorem wanted_meets {b : Beat} {seen : Option Time} (found : b.found? k = some seen) (working : s.Working k)
    (wanted : ¬(key.valid = false ∨ s.isClosed = true)) : s.Meets k key b (s.observe k seen) := by
  simp only [not_or, Bool.not_eq_false, Bool.not_eq_true] at wanted
  obtain ⟨valid, opened⟩ := wanted
  by_cases he : key.events seen = []
  · rw [observe_calm hk valid opened he]
    exact .calm found working valid opened he
  · rw [observe_telling hk valid opened he]
    exact .told found working valid opened he

theorem look_meets (working : s.Working k) (seen : Option Time) :
    s.Meets k key (.act (.look k seen)) (s.observe k seen) := by
  by_cases gone : key.valid = false ∨ s.isClosed = true
  · rw [observe_stale hk gone]
    exact .stale working gone
  · exact wanted_meets hk (if_pos rfl) working gone

theorem answer_meets (working : s.Working k) (seen : Option Time) :
    s.Meets k key (.answer k seen) (s.conclude k seen) := by
  by_cases gone : key.valid = false ∨ s.isClosed = true
  · have unwanted : (key.valid && !s.isClosed) = false := by
      rcases gone with h | h
      · rw [h, Bool.false_and]
      · rw [h, Bool.not_true, Bool.and_false]
    rw [conclude, hk]
    simp only [unwanted, Bool.false_eq_true, if_false]
    split
    · exact .late working gone (key?_changed hk _) rfl rfl rfl
    · exact .late working gone (key?_changed hk _) rfl rfl rfl
  · have same : s.observe k seen = s.conclude k seen := by
      rw [observe_eq, hk, Option.any_some, if_neg]
      simpa using gone
    rw [← same]
    exact wanted_meets hk (if_pos rfl) working gone

omit hk in
theorem poll_meets {b : Beat} (asked : b = .act .poll ∨ b = .act .take) : s.Meets k key b s.poll.2 := by
  have blind : b.found? k = none := by rcases asked with rfl | rfl <;> rfl
  have unread : b ≠ .act (.read k) := by rcases asked with rfl | rfl <;> simp
  by_cases hp : s.poll.1 = some k
  · obtain hn | ⟨j, rest, opened, first, hn⟩ := poll_cases s
    · rw [hn] at hp
      cases hp
    · rw [hn] at hp ⊢
      cases hp
      exact .handed asked opened first
  · exact .spared (.poll hp) (.inl blind) unread

/-- **Every beat meets a key in one of these ways.** -/
theorem beat_meets (b : Beat) : s.Meets k key b (s.beat b) := by
  cases b with
  | ask request => exact .spared (.ask request) (.inl rfl) (by simp)
  | withdraw request => exact .spared (.withdraw request) (.inl rfl) (by simp)
  | enroll request seen now =>
    rw [beat]
    split
    · exact .spared (.enroll hk request seen now) (.inl rfl) (by simp)
    · exact .spared (.refl s k) (.inl rfl) (by simp)
  | answer j seen =>
    rw [beat]
    split
    · next hw =>
      by_cases hj : k = j
      · subst hj
        exact answer_meets hk hw seen
      · exact .spared (.conclude hj seen) (.inl (if_neg (Ne.symm hj))) (by simp)
    · next hw =>
      refine .spared (.refl s k) ?_ (by simp)
      by_cases hj : j = k
      · exact .inr (hj ▸ hw)
      · exact .inl (if_neg hj)
  | act act =>
    rw [beat]
    cases act with
    | register path interest seen now =>
      simp only [after]
      split
      · exact .spared (.refl s k) (.inl rfl) (by simp)
      · exact .spared (.register hk path interest seen now) (.inl rfl) (by simp)
    | look j seen =>
      simp only [after]
      split
      · next hw =>
        by_cases hj : k = j
        · subst hj
          exact look_meets hk hw seen
        · exact .spared (.observe hj seen) (.inl (if_neg (Ne.symm hj))) (by simp)
      · next hw =>
        refine .spared (.refl s k) ?_ (by simp)
        by_cases hj : j = k
        · exact .inr (hj ▸ hw)
        · exact .inl (if_neg hj)
    | quit j =>
      by_cases hj : k = j
      · subst hj
        exact .quit
      · exact .spared (.retire hj) (.inl rfl) (by simp)
    | pass stop => exact .spared ⟨rfl, rfl, rfl, working_advance s k stop, rfl⟩ (.inl rfl) (by simp)
    | poll => exact poll_meets (.inl rfl)
    | take =>
      rw [after, take_eq_poll]
      exact poll_meets (.inr rfl)
    | read j =>
      by_cases hj : k = j
      · subst hj
        rw [after, takeEvents, hk]
        exact .read
      · refine .spared ?_ (.inl rfl) (by simpa using Ne.symm hj)
        obtain hr | hr := takeEvents_snd s j
        · rw [after, hr]
          exact .refl s k
        · rw [after, hr]
          exact .update hj _
    | reset j now =>
      obtain hr | ⟨other, hother, valid, opened, signalled, hr⟩ := reset_cases s j now
      · rw [after, hr]
        exact .spared (.refl s k) (.inl rfl) (by simp)
      · rw [after, hr]
        by_cases hj : k = j
        · subst hj
          obtain rfl : key = other := Option.some.inj (hk.symm.trans hother)
          exact .reset valid opened signalled
        · exact .spared ((Leaves.update hj _).trans (.start hj now)) (.inl rfl) (by simp)
    | cancel j =>
      obtain hx | ⟨other, hother, valid, hx⟩ := cancel_cases s j
      · rw [after, hx]
        exact .spared (.refl s k) (.inl rfl) (by simp)
      · rw [after, hx]
        by_cases hj : k = j
        · subst hj
          obtain rfl : key = other := Option.some.inj (hk.symm.trans hother)
          exact .cancel valid
        · exact .spared (.dropped hj _) (.inl rfl) (by simp)
    | close =>
      cases hc : s.isClosed with
      | true =>
        rw [after, close_closed hc]
        exact .spared (.refl s k) (.inl rfl) (by simp)
      | false => exact .close hc

end Beats

/-! ## Keys that are not there yet -/

section Sizes

variable (s : WatchService)

theorem size_conclude (j : KeyId) (seen : Option Time) : (s.conclude j seen).keys.size = s.keys.size := by
  unfold conclude
  split
  · rfl
  · split
    · exact size_update _ _ _
    · split
      · exact (size_update _ _ _).trans (size_update _ _ _)
      · exact size_update _ _ _

theorem size_observe (j : KeyId) (seen : Option Time) : (s.observe j seen).keys.size = s.keys.size := by
  rw [observe_eq]
  split
  · rfl
  · exact s.size_conclude j seen

theorem size_poll : s.poll.2.keys.size = s.keys.size := by
  obtain hp | ⟨k, rest, -, -, hp⟩ := poll_cases s
  · rw [hp]
  · rw [hp]

/-- a beat makes a key: by a registration that has its answer at once, or by one that began before -/
inductive Makes (s : WatchService) : Beat → WatchRequest → Option Time → WatchService → Prop where
  | atOnce {path : AbsolutePath} {interest : List EventKind} {seen : Option Time} {now : Nat}
      (opened : s.isClosed = false) :
      Makes s (.act (.register path interest seen now)) ⟨path, interest⟩ seen (s.register path interest seen now).2
  | late {request : WatchRequest} {seen : Option Time} {now : Nat} (asked : request ∈ s.asked) :
      Makes s (.enroll request seen now) request seen (s.enroll request seen now).2

/-- keys come by registration, and none goes -/
theorem size_beat (b : Beat) :
    (∃ request seen, s.Makes b request seen (s.beat b)) ∨ (s.beat b).keys.size = s.keys.size := by
  cases b with
  | ask request =>
    refine .inr ?_
    rw [beat, ask]
    split <;> rfl
  | withdraw request => exact .inr rfl
  | enroll request seen now =>
    by_cases asked : request ∈ s.asked
    · exact .inl ⟨request, seen, by rw [beat, if_pos asked]; exact .late asked⟩
    · exact .inr (by rw [beat, if_neg asked])
  | answer j seen =>
    refine .inr ?_
    rw [beat]
    split
    · exact s.size_conclude j seen
    · rfl
  | act act =>
    rw [beat]
    cases act with
    | register path interest seen now =>
      cases hc : s.isClosed with
      | true => exact .inr (by rw [after, if_pos hc])
      | false => exact .inl ⟨⟨path, interest⟩, seen, by rw [after, if_neg (by simp [hc])]; exact .atOnce hc⟩
    | look j seen =>
      refine .inr ?_
      rw [after]
      split
      · exact s.size_observe j seen
      · rfl
    | quit j => exact .inr rfl
    | pass stop => exact .inr rfl
    | poll => exact .inr s.size_poll
    | take =>
      rw [after, take_eq_poll]
      exact .inr s.size_poll
    | read j =>
      obtain hr | hr := takeEvents_snd s j
      · exact .inr (by rw [after, hr])
      · exact .inr (by rw [after, hr, size_update])
    | reset j now =>
      obtain hr | ⟨-, -, -, -, -, hr⟩ := reset_cases s j now
      · exact .inr (by rw [after, hr])
      · exact .inr (by rw [after, hr]; exact size_update _ _ _)
    | cancel j =>
      obtain hx | ⟨-, -, -, hx⟩ := cancel_cases s j
      · exact .inr (by rw [after, hx])
      · exact .inr (by rw [after, hx]; exact size_update _ _ _)
    | close =>
      cases hc : s.isClosed with
      | true => exact .inr (by rw [after, close_closed hc])
      | false =>
        obtain ⟨keys, hsize, heq⟩ := close_eq hc
        exact .inr (by rw [after, heq]; exact hsize)

/-- a key that is made is made in a service that has the keys, the queue and the live table it had before -/
theorem Makes.registers {s t : WatchService} {b : Beat} {request : WatchRequest} {seen : Option Time}
    (h : s.Makes b request seen t) : ∃ asked now,
      t = (({ s with asked } : WatchService).register request.path request.interest seen now).2 := by
  cases h with
  | @atOnce _ _ _ now opened => exact ⟨s.asked, now, rfl⟩
  | @late _ _ now asked => exact ⟨s.asked.erase request, now, rfl⟩

theorem le_size_beat (b : Beat) : s.keys.size ≤ (s.beat b).keys.size := by
  obtain ⟨request, seen, made⟩ | hsame := s.size_beat b
  · obtain ⟨asked, now, heq⟩ := made.registers
    rw [heq]
    exact (Array.size_push _).symm ▸ Nat.le_succ _
  · exact hsame.ge

/-- a key that was not there before a beat and is there after it has been registered in it -/
theorem beat_born {s : WatchService} {k : KeyId} {key : WatchKey} {b : Beat} (hn : s.key? k = none)
    (hk : (s.beat b).key? k = some key) : ∃ request seen, s.Makes b request seen (s.beat b) ∧ k = s.keys.size ∧
      key = .new request.path request.interest seen := by
  have hsize : s.keys.size ≤ k := Array.getElem?_eq_none_iff.1 hn
  obtain ⟨request, seen, made⟩ | hsame := s.size_beat b
  · obtain ⟨asked, now, heq⟩ := made.registers
    rw [heq, key?_register] at hk
    split at hk
    · next hk' =>
      cases hk
      exact ⟨request, seen, made, hk', rfl⟩
    · exact absurd (hn.symm.trans hk) nofun
  · exact absurd (key?_lt hk) (hsame ▸ Nat.not_lt.2 hsize)

end Sizes

/-! ## Registrations under way -/

/-- the registrations under way after a beat, by those before it -/
def Beat.underWay (closed : Bool) (asked : List WatchRequest) : Beat → List WatchRequest
  | .ask request => if closed then asked else request :: asked
  | .enroll request _ _ | .withdraw request => asked.erase request
  | _ => asked

section Asked

variable (s : WatchService)

/-- a registration that comes to nothing as soon as it has begun -/
theorem withdraw_ask {s : WatchService} (h : s.isClosed = false) (request : WatchRequest) :
    (s.ask request).withdraw request = s := by
  rw [ask, if_neg (by simp [h]), withdraw, List.erase_cons_head]

theorem asked_conclude (k : KeyId) (seen : Option Time) : (s.conclude k seen).asked = s.asked := by
  unfold conclude
  repeat' split
  all_goals rfl

theorem asked_poll : s.poll.2.asked = s.asked := by
  obtain hp | ⟨k, rest, -, -, hp⟩ := poll_cases s
  · rw [hp]
  · rw [hp]

theorem asked_close : s.close.asked = s.asked := by
  cases hc : s.isClosed with
  | true => rw [close_closed hc]
  | false =>
    obtain ⟨keys, -, heq⟩ := close_eq hc
    rw [heq]

/-- an act leaves the registrations that are under way alone -/
theorem asked_after (act : Act) : (s.after act).asked = s.asked := by
  cases act with
  | register path interest seen now =>
    rw [after]
    split <;> rfl
  | look k seen =>
    rw [after]
    split
    · rw [observe_eq]
      split
      · rfl
      · exact s.asked_conclude k seen
    · rfl
  | quit k => rfl
  | pass stop => rfl
  | poll => exact s.asked_poll
  | take =>
    rw [after, take_eq_poll]
    exact s.asked_poll
  | read k =>
    obtain hr | hr := takeEvents_snd s k
    · rw [after, hr]
    · rw [after, hr]
      rfl
  | reset k now =>
    obtain hr | ⟨-, -, -, -, -, hr⟩ := reset_cases s k now
    · rw [after, hr]
    · rw [after, hr]
      rfl
  | cancel k =>
    obtain hx | ⟨-, -, -, hx⟩ := cancel_cases s k
    · rw [after, hx]
    · rw [after, hx]
      rfl
  | close => exact s.asked_close

/-- **The registrations that are under way after a beat.** -/
theorem asked_beat (b : Beat) : (s.beat b).asked = b.underWay s.isClosed s.asked := by
  cases b with
  | act act => exact s.asked_after act
  | answer k seen =>
    rw [beat]
    split
    · exact s.asked_conclude k seen
    · rfl
  | ask request =>
    rw [beat, ask, Beat.underWay]
    split <;> rfl
  | enroll request seen now =>
    rw [beat, Beat.underWay]
    split
    · rfl
    · next absent => exact (List.erase_of_not_mem absent).symm
  | withdraw request => rfl

end Asked

/-! ## What all runs keep -/

/-- a service stands on its namespace and stays closed -/
structure Stands (s t : WatchService) : Prop where
  space : t.space = s.space
  isClosed : s.isClosed = true → t.isClosed = true

namespace Stands

theorem conclude (s : WatchService) (k : KeyId) (seen : Option Time) : s.Stands (s.conclude k seen) := by
  unfold WatchService.conclude
  repeat' split
  all_goals exact ⟨rfl, id⟩

theorem observe (s : WatchService) (k : KeyId) (seen : Option Time) : s.Stands (s.observe k seen) := by
  rw [observe_eq]
  split
  · exact ⟨rfl, id⟩
  · exact conclude s k seen

theorem poll (s : WatchService) : s.Stands s.poll.2 := by
  obtain hp | ⟨k, rest, -, -, hp⟩ := poll_cases s
  · rw [hp]
    exact ⟨rfl, id⟩
  · rw [hp]
    exact ⟨rfl, id⟩

theorem close (s : WatchService) : s.Stands s.close := by
  cases hc : s.isClosed with
  | true =>
    rw [close_closed hc]
    exact ⟨rfl, id⟩
  | false =>
    obtain ⟨keys, -, heq⟩ := close_eq hc
    rw [heq]
    exact ⟨rfl, fun _ => rfl⟩

theorem beat (s : WatchService) (b : Beat) : s.Stands (s.beat b) := by
  cases b with
  | ask request =>
    rw [WatchService.beat, ask]
    split
    · exact ⟨rfl, id⟩
    · exact ⟨rfl, id⟩
  | withdraw request => exact ⟨rfl, id⟩
  | enroll request seen now =>
    rw [WatchService.beat]
    split
    · exact ⟨rfl, id⟩
    · exact ⟨rfl, id⟩
  | answer k seen =>
    rw [WatchService.beat]
    split
    · exact conclude s k seen
    · exact ⟨rfl, id⟩
  | act act =>
    rw [WatchService.beat]
    cases act with
    | register path interest seen now =>
      rw [after]
      split
      · exact ⟨rfl, id⟩
      · exact ⟨rfl, id⟩
    | look k seen =>
      rw [after]
      split
      · exact observe s k seen
      · exact ⟨rfl, id⟩
    | quit k => exact ⟨rfl, id⟩
    | pass stop => exact ⟨rfl, id⟩
    | poll => exact poll s
    | take =>
      rw [after, take_eq_poll]
      exact poll s
    | read k =>
      obtain hr | hr := takeEvents_snd s k
      · rw [after, hr]
        exact ⟨rfl, id⟩
      · rw [after, hr]
        exact ⟨rfl, id⟩
    | reset k now =>
      obtain hr | ⟨-, -, -, -, -, hr⟩ := reset_cases s k now
      · rw [after, hr]
        exact ⟨rfl, id⟩
      · rw [after, hr]
        exact ⟨rfl, id⟩
    | cancel k =>
      obtain hx | ⟨-, -, -, hx⟩ := cancel_cases s k
      · rw [after, hx]
        exact ⟨rfl, id⟩
      · rw [after, hx]
        exact ⟨rfl, id⟩
    | close => exact close s

theorem play (s : WatchService) (beats : List Beat) : s.Stands (s.play beats) := by
  induction beats generalizing s with
  | nil => exact ⟨rfl, id⟩
  | cons b rest ih =>
    obtain ⟨hspace, hclosed⟩ := ih (s.beat b)
    exact ⟨hspace.trans (beat s b).space, fun h => hclosed ((beat s b).isClosed h)⟩

end Stands

/-- a key stays, for its path and its kinds of change -/
theorem Meets.stays {s t : WatchService} {k : KeyId} {key : WatchKey} {b : Beat} (hk : s.key? k = some key)
    (hm : s.Meets k key b t) : ∃ next, t.key? k = some next ∧ next.path = key.path ∧ next.interest = key.interest := by
  cases hm with
  | spared alone => exact ⟨key, alone.key.trans hk, rfl, rfl⟩
  | quit => exact ⟨key, hk, rfl, rfl⟩
  | stale => exact ⟨key, hk, rfl, rfl⟩
  | calm => exact ⟨_, key?_changed hk _, rfl, rfl⟩
  | @told _ seen =>
    exact ⟨(key.see seen).signal (key.events seen), by simp [hk], rfl, rfl⟩
  | late working gone remembers => exact ⟨_, remembers, rfl, rfl⟩
  | handed => exact ⟨key, hk, rfl, rfl⟩
  | read => exact ⟨_, key?_changed hk _, rfl, rfl⟩
  | reset => exact ⟨_, key?_changed hk _, rfl, rfl⟩
  | cancel => exact ⟨_, key?_changed hk _, rfl, rfl⟩
  | close opened =>
    rw [key?_close, hk]
    split
    · exact ⟨_, rfl, rfl, rfl⟩
    · exact ⟨_, rfl, rfl, rfl⟩

theorem Orderly.conclude {s : WatchService} (h : s.Orderly) (k : KeyId) (seen : Option Time) :
    (s.conclude k seen).Orderly := by
  have looked : (s.update k (·.see seen)).Orderly := h.update k (fun _ => rfl) (fun _ => rfl)
  unfold WatchService.conclude
  cases hk : s.key? k with
  | none => exact h
  | some key =>
    dsimp only
    split
    · exact looked
    · split
      · exact looked.signal (show _ = some (key.see seen) by simp [hk]) _
      · exact looked.retire k

theorem Orderly.asking {s : WatchService} (h : s.Orderly) (asked : List WatchRequest) :
    ({ s with asked } : WatchService).Orderly :=
  ⟨h.exists_of, h.once, h.quiet, h.standing⟩

theorem Orderly.beat {s : WatchService} (h : s.Orderly) (b : Beat) : (s.beat b).Orderly := by
  cases b with
  | act act => exact h.after act
  | ask request =>
    rw [WatchService.beat, ask]
    split
    · exact h
    · exact h.asking _
  | withdraw request => exact h.asking _
  | enroll request seen now =>
    rw [WatchService.beat]
    split
    · exact (h.asking _).register request.path request.interest seen now
    · exact h
  | answer k seen =>
    rw [WatchService.beat]
    split
    · exact h.conclude k seen
    · exact h

theorem Orderly.play {s : WatchService} (h : s.Orderly) (beats : List Beat) : (s.play beats).Orderly := by
  induction beats generalizing s with
  | nil => exact h
  | cons b rest ih => exact ih (h.beat b)

/-- **The books of a service are in order in every run, also if looks take time.** -/
theorem play_orderly (space : NamespaceId) (interval : Nat) (beats : List Beat) :
    ((new space interval).play beats).Orderly :=
  (Orderly.new space interval).play beats

end WatchService

end MountSpace

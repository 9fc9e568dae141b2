/-
The queue of ready keys. A key joins it with a batch of events when it is signalled, and leaves it when it is handed
out. As long as it stands in the queue it has no worker, so there is no second signal to queue it for, and its batch
stays in the outbox until it is read (`InTurn`).

Only a reset disturbs this. It takes back the signal, empties the outbox and starts a worker, whether the key was handed
out or not; a key that stands in the queue stays there. It is then handed out with nothing to tell, and is queued twice
if the new worker signals it first.

- `queue_in_turn`: a key is in turn throughout a run exactly if no reset of it succeeds while it stands in the queue;
- `hasty_reset_disturbs`: the run where one does.
-/
import MountSpace.Proofs.Watch.Closing
import MountSpace.Proofs.Watch.Looks

namespace MountSpace

namespace WatchService

/-- the batch that a key is signalled with in a beat -/
def told? (s : WatchService) (k : KeyId) (b : Beat) : Option (List WatchEvent) :=
  match b.found? k, s.key? k with
  | some seen, some key => if s.Looking k ∧ key.events seen ≠ [] then some (key.events seen) else none
  | _, _ => none

/-- the latest batch of a key after a beat, or what is left of it -/
def left (s : WatchService) (k : KeyId) (last : List WatchEvent) (b : Beat) : List WatchEvent :=
  if b = .act (.read k) then [] else (s.told? k b).getD last

/-- the latest batch of a key after some beats, or nothing if it was read since -/
def unread (s : WatchService) (k : KeyId) (last : List WatchEvent) : List Beat → List WatchEvent
  | [] => last
  | b :: rest => (s.beat b).unread k (s.left k last b) rest

/-- a key keeps its turn: there is one entry of it in the queue at most, and with it goes the latest batch -/
structure InTurn (s : WatchService) (k : KeyId) (last : List WatchEvent) : Prop where
  once : s.ready.count k ≤ 1
  queued : k ∈ s.ready → ∃ key, s.key? k = some key ∧ key.signalled = true
  /-- whoever it is handed to finds it signalled, and finds in it what he has not read of its latest batch -/
  handed : ∀ act, s.handed? act = some k →
    ∃ key, (s.after act).key? k = some key ∧ key.signalled = true ∧ key.outbox = last

/-! ## What is told -/

section Told

variable {s : WatchService} {k : KeyId} {key : WatchKey} {b : Beat} {last : List WatchEvent}

theorem told?_blind (h : b.found? k = none) : s.told? k b = none := by simp [told?, h]

theorem told?_idle (h : ¬s.Looking k) : s.told? k b = none := by
  unfold told?
  split
  · exact if_neg fun hl => h hl.1
  · rfl

theorem told?_spared (h : b.found? k = none ∨ ¬s.Working k) : s.told? k b = none :=
  h.elim told?_blind fun h => told?_idle fun hl => h hl.1

theorem looking_iff (hk : s.key? k = some key) :
    s.Looking k ↔ s.Working k ∧ s.isClosed = false ∧ key.valid = true := by
  rw [Looking, hk, Option.any_some]

theorem told?_found {seen : Option Time} (hk : s.key? k = some key) (hl : s.Looking k) (h : b.found? k = some seen) :
    s.told? k b = if key.events seen ≠ [] then some (key.events seen) else none := by
  simp [told?, h, hk, hl]

theorem read_untold (h : b.found? k ≠ none) : b ≠ .act (.read k) := by
  rintro rfl
  exact h rfl

end Told

/-! ## What a beat keeps -/

/-- what a beat keeps of a key's turn -/
structure Waiting (s : WatchService) (k : KeyId) (last : List WatchEvent) : Prop where
  once : s.ready.count k ≤ 1
  full : k ∈ s.ready → ∃ key, s.key? k = some key ∧ key.signalled = true ∧ key.outbox = last

theorem Waiting.inTurn {s : WatchService} {k : KeyId} {last : List WatchEvent} (h : s.Waiting k last) :
    s.InTurn k last := by
  have polled : s.poll.1 = some k →
      ∃ key, s.poll.2.key? k = some key ∧ key.signalled = true ∧ key.outbox = last := by
    intro hp
    obtain hn | ⟨j, rest, -, hr, hn⟩ := poll_cases s
    · rw [hn] at hp
      cases hp
    · rw [hn] at hp ⊢
      cases hp
      exact h.full (hr ▸ List.mem_cons_self)
  refine ⟨h.once, fun hq => ?_, fun act ha => ?_⟩
  · obtain ⟨key, hk, hs, -⟩ := h.full hq
    exact ⟨key, hk, hs⟩
  · cases act with
    | poll => exact polled ha
    | take =>
      rw [handed?_take] at ha
      rw [after, take_eq_poll]
      exact polled ha
    | _ => cases ha

section Kept

variable {s t : WatchService} {k : KeyId} {key : WatchKey} {b : Beat} {last : List WatchEvent}

theorem mem_of_count (h : t.ready.count k = s.ready.count k) : k ∈ t.ready ↔ k ∈ s.ready := by
  rw [← List.count_pos_iff, ← List.count_pos_iff, h]

/-- a queue that is left alone, with what counts of its key left alone -/
theorem Waiting.of_same (h : s.Waiting k last) (hk : s.key? k = some key) {next : WatchKey}
    (hn : t.key? k = some next) (hs : next.signalled = key.signalled) (ho : next.outbox = key.outbox)
    (hq : t.ready.count k = s.ready.count k) : t.Waiting k last := by
  refine ⟨hq ▸ h.once, fun ht => ⟨next, hn, ?_⟩⟩
  obtain ⟨old, hold, hsig, hout⟩ := h.full ((mem_of_count hq).1 ht)
  obtain rfl : key = old := Option.some.inj (hk.symm.trans hold)
  exact ⟨hs.trans hsig, ho.trans hout⟩

/-- a beat that tells nothing and reads nothing leaves the latest batch as it was -/
theorem Waiting.untold (h : t.Waiting k last) (hu : s.told? k b = none) (hr : b ≠ .act (.read k)) :
    t.Waiting k (s.left k last b) := by
  rw [left, if_neg hr, hu]
  exact h

theorem Waiting.nowhere (h : k ∉ s.ready) : s.Waiting k last :=
  ⟨by rw [List.count_eq_zero_of_not_mem h]; exact Nat.zero_le 1, fun hq => absurd hq h⟩

/-- a key that is signalled and joins the queue -/
theorem Waiting.joined {next : WatchKey} (absent : k ∉ s.ready) (hq : t.ready = s.ready ++ [k])
    (hn : t.key? k = some next) (hs : next.signalled = true) : t.Waiting k next.outbox := by
  refine ⟨?_, fun _ => ⟨next, hn, hs, rfl⟩⟩
  rw [hq, List.count_append, List.count_eq_zero_of_not_mem absent, List.count_singleton_self]

/-- however a beat meets a key, it keeps its turn, unless it is a reset while the key stands in the queue -/
theorem Waiting.meets (h : s.Waiting k last) (horderly : s.Orderly) (hk : s.key? k = some key)
    (hm : s.Meets k key b t) (proper : ∀ now, b = .act (.reset k now) → k ∈ s.ready → (s.reset k now).1 = false) :
    t.Waiting k (s.left k last b) := by
  have idle : key.valid = false ∨ s.isClosed = true → ¬s.Looking k := by
    rintro gone hl
    obtain ⟨-, opened, valid⟩ := (looking_iff hk).1 hl
    simp [opened, valid] at gone
  cases hm with
  | spared alone blind unread =>
    exact .untold (h.of_same hk (alone.key.trans hk) rfl rfl alone.queued) (told?_spared blind) unread
  | quit => exact .untold (h.of_same hk hk rfl rfl rfl) (told?_blind rfl) nofun
  | stale working gone => exact .untold (h.of_same hk hk rfl rfl rfl) (told?_idle (idle gone)) nofun
  | @calm _ seen found working valid opened quiet =>
    have looked := key?_changed hk (·.see seen)
    refine .untold (h.of_same hk looked rfl rfl rfl) ?_ (read_untold (by simp [found]))
    rw [told?_found hk ((looking_iff hk).2 ⟨working, opened, valid⟩) found, if_neg (not_not.2 quiet)]
  | @told _ seen found working valid opened news =>
    -- a key that has a worker is not signalled, so it was not queued before
    have absent : k ∉ s.ready := by
      intro hq
      obtain ⟨old, hold, hsig, -⟩ := h.full hq
      rw [horderly.quiet k old hold working] at hsig
      cases hsig
    have batch : s.left k last b = key.events seen := by
      rw [left, if_neg (read_untold (by simp [found])),
        told?_found hk ((looking_iff hk).2 ⟨working, opened, valid⟩) found, if_pos news]
      rfl
    have signalled : (((s.update k (·.see seen)).signal k (key.events seen)).retire k).key? k =
        some ((key.see seen).signal (key.events seen)) := by simp [hk]
    rw [batch]
    exact .joined absent rfl signalled rfl
  | late working gone remembers live ready isClosed =>
    exact .untold (h.of_same hk remembers rfl rfl (by rw [ready])) (told?_idle (idle gone)) nofun
  | @handed _ rest asked opened first =>
    have blind : b.found? k = none := by rcases asked with rfl | rfl <;> rfl
    have unread : b ≠ .act (.read k) := by rcases asked with rfl | rfl <;> nofun
    -- it was queued once, so it is queued no more
    have gone : k ∉ rest := by
      have once := h.once
      rw [first, List.count_cons_self] at once
      exact List.count_eq_zero.1 (Nat.le_zero.1 (Nat.succ_le_succ_iff.1 once))
    exact .untold (.nowhere gone) (told?_blind blind) unread
  | read =>
    have taken := key?_changed hk fun key => key.takeEvents.2
    rw [left, if_pos rfl]
    refine ⟨h.once, fun hq => ⟨_, taken, ?_, rfl⟩⟩
    obtain ⟨old, hold, hsig, -⟩ := h.full hq
    obtain rfl : key = old := Option.some.inj (hk.symm.trans hold)
    exact hsig
  | @reset now valid opened signalled =>
    -- it was handed out before
    have gone : k ∉ s.ready := by
      intro hq
      have refused := proper now rfl hq
      simp [WatchService.reset, hk, valid, opened, signalled] at refused
    exact .untold (.nowhere gone) (told?_blind rfl) nofun
  | cancel valid =>
    have given := key?_changed hk (·.invalidate)
    exact .untold (h.of_same hk given rfl rfl rfl) (told?_blind rfl) nofun
  | close opened =>
    have closed := key?_close_of_orderly horderly opened hk
    obtain ⟨keys, -, heq⟩ := close_eq opened
    exact .untold (h.of_same hk closed rfl rfl (by rw [heq])) (told?_blind rfl) nofun

theorem Waiting.beat (h : s.Waiting k last) (horderly : s.Orderly) (b : Beat)
    (proper : ∀ now, b = .act (.reset k now) → k ∈ s.ready → (s.reset k now).1 = false) :
    (s.beat b).Waiting k (s.left k last b) := by
  cases hk : s.key? k with
  | some key => exact h.meets horderly hk (beat_meets hk b) proper
  | none =>
    -- a key that is not there is not queued, and it is not queued by being registered
    refine .nowhere fun hq => ?_
    obtain ⟨next, hnext⟩ : ∃ next, (s.beat b).key? k = some next :=
      ⟨_, Array.getElem?_eq_getElem ((horderly.beat b).exists_of k (.inr (.inl hq)))⟩
    obtain ⟨request, seen, made, hnew, -⟩ := beat_born hk hnext
    obtain ⟨asked, now, heq⟩ := made.registers
    rw [heq] at hq
    exact absurd (horderly.exists_of k (.inr (.inl hq))) (hnew ▸ Nat.lt_irrefl _)

end Kept

/-! ## Runs -/

/-- no reset of a key succeeds while it stands in the queue -/
def Patient (s : WatchService) (k : KeyId) (beats : List Beat) : Prop :=
  ∀ before now, before ++ [.act (.reset k now)] <+: beats → k ∈ (s.play before).ready →
    ((s.play before).reset k now).1 = false

theorem Waiting.play {s : WatchService} {k : KeyId} {last : List WatchEvent} (h : s.Waiting k last)
    (horderly : s.Orderly) {beats : List Beat} (proper : s.Patient k beats) :
    (s.play beats).Waiting k (s.unread k last beats) := by
  induction beats generalizing s last with
  | nil => exact h
  | cons b rest ih =>
    have first : ∀ now, b = .act (.reset k now) → k ∈ s.ready → (s.reset k now).1 = false := by
      rintro now rfl hq
      exact proper [] now (List.cons_prefix_cons.2 ⟨rfl, by simp⟩) hq
    exact ih (h.beat horderly b first) (horderly.beat b) fun before now hpre hq =>
      proper (b :: before) now (List.cons_prefix_cons.2 ⟨rfl, hpre⟩) hq

/-- **When keys keep their turn.** Throughout a run a key is queued once at most, is signalled while it is queued, and
is handed out signalled and with what is unread of its latest batch, exactly if no reset of it succeeds while it stands
in the queue. -/
theorem queue_in_turn (space : NamespaceId) (interval : Nat) (beats : List Beat) (k : KeyId) :
    (∀ before, before <+: beats →
      ((new space interval).play before).InTurn k ((new space interval).unread k [] before)) ↔
    (new space interval).Patient k beats := by
  constructor
  · intro turns before now hpre hq
    obtain hr | ⟨key, hk, -, -, -, hr⟩ := reset_cases ((new space interval).play before) k now
    · rw [hr]
    · -- the key stands in the queue after the reset, and is not signalled
      have after : (new space interval).play (before ++ [.act (.reset k now)]) =
          ((((new space interval).play before).update k (·.resume)).start k now) := by
        rw [play_append]
        exact congrArg Prod.snd hr
      obtain ⟨next, hnext, hsig⟩ := (turns _ hpre).queued (by rw [after]; exact hq)
      rw [after, key?_start, key?_update_self, hk] at hnext
      cases hnext
      cases hsig
  · intro proper before hpre
    have patient : (new space interval).Patient k before := fun earlier now he => proper earlier now (he.trans hpre)
    have start : (new space interval).Waiting k [] := .nowhere nofun
    exact (start.play (.new space interval) patient).inTurn

/-- a key that is signalled and reset before anybody took it, and looked at again -/
def hasty : List Beat :=
  [.act (.register ⟨1, ["a"]⟩ [.created, .deleted] none 0), .act (.look 0 (some 5)), .act (.reset 0 0)]

/-- A key that was reset while it stood in the queue is handed out unsignalled and with nothing to tell, and with the
next change it stands in the queue twice. -/
theorem hasty_reset_disturbs :
    (((new 1 100).play hasty).poll.1 = some 0 ∧
      ((new 1 100).play (hasty ++ [.act .poll])).key? 0 =
        some ⟨⟨1, ["a"]⟩, [.created, .deleted], some 5, [], false, true⟩) ∧
    ((new 1 100).play (hasty ++ [.act (.look 0 none)])).ready = [0, 0] := by
  decide

end WatchService

end MountSpace

/-
Runs of a watch service. What happens to a service is a sequence of acts: keys are registered, a worker looks at its
path and finds it in some state, somebody polls or takes, reads, resets or cancels a key, the service is closed. Which
state a look finds is free, so a run says nothing of who changes the watched paths, or when.

Keys are told apart by their numbers, and most of a run is about other keys than the one in question. So each write of
a service has a lemma on what it does to one key (`key?_*`), and the rest of a key's situation is whether it is live,
how often it is queued and whether a worker looks at it.

- `run_orderly`: in every run a key has one worker at most, none while it is signalled, and as long as the service is
  open it is live exactly if it is valid and not signalled.
-/
import MountSpace.Watch.Service

namespace MountSpace

namespace WatchService

/-- a worker looks at a key -/
def Working (s : WatchService) (k : KeyId) : Prop := ∃ worker ∈ s.workers, worker.key = k

instance (s : WatchService) (k : KeyId) : Decidable (s.Working k) :=
  inferInstanceAs (Decidable (∃ worker ∈ s.workers, worker.key = k))

/-- what can happen to a service -/
inductive Act where
  | register (path : AbsolutePath) (interest : List EventKind) (seen : Option Time) (now : Nat)
  /-- the worker of a key finds its path in a state -/
  | look (k : KeyId) (seen : Option Time)
  /-- the worker of a key finds the namespace closed -/
  | quit (k : KeyId)
  /-- time passes up to a moment -/
  | pass (stop : Nat)
  | poll
  | take
  /-- the pending events of a key are taken out -/
  | read (k : KeyId)
  | reset (k : KeyId) (now : Nat)
  | cancel (k : KeyId)
  | close
  deriving DecidableEq

/-- the service after an act; nobody can register with a closed service, and a key without a worker is not looked at -/
def after (s : WatchService) : Act → WatchService
  | .register path interest seen now => if s.isClosed then s else (s.register path interest seen now).2
  | .look k seen => if s.Working k then s.observe k seen else s
  | .quit k => s.retire k
  | .pass stop => s.advance stop
  | .poll => s.poll.2
  | .take => s.take.2
  | .read k => (s.takeEvents k).2
  | .reset k now => (s.reset k now).2
  | .cancel k => s.cancel k
  | .close => s.close

/-- the service after some acts -/
def run (s : WatchService) (acts : List Act) : WatchService := acts.foldl after s

theorem run_append (s : WatchService) (before later : List Act) : s.run (before ++ later) = (s.run before).run later :=
  List.foldl_append

/-! ## One key under a write -/

section Writes

variable (s : WatchService) (k j : KeyId) (f : WatchKey → WatchKey)

theorem key?_lt {s : WatchService} {k : KeyId} {key : WatchKey} (h : s.key? k = some key) : k < s.keys.size :=
  (Array.getElem?_eq_some_iff.1 h).1

theorem key?_update : (s.update k f).key? j = if j = k then (s.key? j).map f else s.key? j := by
  simp only [key?, update, Array.getElem?_modify]
  by_cases h : k = j
  · simp [h]
  · simp [h, Ne.symm h]

@[simp] theorem key?_update_self : (s.update k f).key? k = (s.key? k).map f := by simp [key?_update]

theorem key?_update_ne (h : j ≠ k) : (s.update k f).key? j = s.key? j := by simp [key?_update, h]

@[simp] theorem size_update : (s.update k f).keys.size = s.keys.size := Array.size_modify

@[simp] theorem live_update : (s.update k f).live = s.live := rfl

@[simp] theorem ready_update : (s.update k f).ready = s.ready := rfl

@[simp] theorem workers_update : (s.update k f).workers = s.workers := rfl

@[simp] theorem isClosed_update : (s.update k f).isClosed = s.isClosed := rfl

@[simp] theorem key?_start (now : Nat) : (s.start k now).key? j = s.key? j := rfl

@[simp] theorem key?_retire : (s.retire k).key? j = s.key? j := rfl

@[simp] theorem key?_signal (events : List WatchEvent) :
    (s.signal k events).key? j = (s.update k (·.signal events)).key? j := rfl

@[simp] theorem key?_advance (stop : Nat) : (s.advance stop).key? j = s.key? j := rfl

theorem key?_register (path : AbsolutePath) (interest : List EventKind) (seen : Option Time) (now : Nat) :
    (s.register path interest seen now).2.key? j =
      if j = s.keys.size then some (.new path interest seen) else s.key? j := by
  simp [register, key?, start, Array.getElem?_push]

@[simp] theorem working_update : (s.update k f).Working j ↔ s.Working j := Iff.rfl

theorem working_start (now : Nat) : (s.start k now).Working j ↔ s.Working j ∨ j = k := by
  simp only [Working, start, List.mem_append, List.mem_singleton]
  constructor
  · rintro ⟨worker, hw | rfl, hk⟩
    · exact .inl ⟨worker, hw, hk⟩
    · exact .inr hk.symm
  · rintro (⟨worker, hw, hk⟩ | rfl)
    · exact ⟨worker, .inl hw, hk⟩
    · exact ⟨_, .inr rfl, rfl⟩

theorem working_retire : (s.retire k).Working j ↔ s.Working j ∧ j ≠ k := by
  simp only [Working, retire, List.mem_filter, decide_eq_true_eq]
  constructor
  · rintro ⟨worker, ⟨hw, hne⟩, rfl⟩
    exact ⟨⟨worker, hw, rfl⟩, hne⟩
  · rintro ⟨⟨worker, hw, rfl⟩, hne⟩
    exact ⟨worker, ⟨hw, hne⟩, rfl⟩

@[simp] theorem working_signal (events : List WatchEvent) : (s.signal k events).Working j ↔ s.Working j := Iff.rfl

/-- a key is live, queued or looked at -/
def Holds (k : KeyId) : Prop := k ∈ s.live ∨ k ∈ s.ready ∨ s.Working k

theorem mem_live_start (now : Nat) : j ∈ (s.start k now).live ↔ j ∈ s.live ∨ j = k := by simp [start]

theorem holds_start (now : Nat) : (s.start k now).Holds j ↔ s.Holds j ∨ j = k := by
  rw [Holds, Holds, mem_live_start, working_start]
  show (_ ∨ j ∈ s.ready ∨ _) ↔ (_ ∨ _ ∨ _) ∨ _
  grind

theorem keys_advance (stop : Nat) : (s.advance stop).workers.map Worker.key = s.workers.map Worker.key := by
  simp [advance, Function.comp_def]

theorem working_iff_mem : s.Working k ↔ k ∈ s.workers.map Worker.key := by simp [Working]

theorem working_advance (stop : Nat) : (s.advance stop).Working j ↔ s.Working j := by
  rw [working_iff_mem, working_iff_mem, keys_advance]

end Writes

/-- what a key is after the service is closed -/
theorem key?_close (s : WatchService) (j : KeyId) :
    s.close.key? j = if s.isClosed = false ∧ j ∈ s.live then (s.key? j).map .invalidate else s.key? j := by
  have fold : ∀ (l : List KeyId) (s : WatchService),
      (l.foldl (fun s k => s.update k (·.invalidate)) s).key? j =
        if j ∈ l then (s.key? j).map .invalidate else s.key? j := by
    intro l
    induction l with
    | nil => simp
    | cons k rest ih =>
      intro s
      rw [List.foldl_cons, ih, key?_update]
      by_cases hk : j = k
      · -- given up once or twice, a key is given up
        have twice : (WatchKey.invalidate ∘ fun key : WatchKey => key.invalidate) = WatchKey.invalidate := rfl
        by_cases hr : j ∈ rest <;> simp [hk, twice]
      · simp [hk]
  unfold close
  by_cases hc : s.isClosed = true
  · simp [hc]
  · rw [if_neg hc]
    exact (fold s.live s).trans (by simp [hc])

/-- what is left of a service that is closed: its queue and its workers -/
theorem close_eq {s : WatchService} (h : s.isClosed = false) :
    ∃ keys, keys.size = s.keys.size ∧ s.close = { s with keys, live := [], isClosed := true } := by
  have fold : ∀ (l : List KeyId) (s : WatchService), ∃ keys, keys.size = s.keys.size ∧
      l.foldl (fun s k => s.update k (·.invalidate)) s = { s with keys } := by
    intro l
    induction l with
    | nil => exact fun s => ⟨s.keys, rfl, rfl⟩
    | cons k rest ih =>
      intro s
      obtain ⟨keys, hsize, heq⟩ := ih (s.update k (·.invalidate))
      exact ⟨keys, hsize.trans (size_update _ _ _), heq⟩
  obtain ⟨keys, hsize, heq⟩ := fold s.live s
  refine ⟨keys, hsize, ?_⟩
  rw [close, if_neg (by simp [h])]
  exact congrArg (fun s : WatchService => { s with live := [], isClosed := true }) heq

theorem close_closed {s : WatchService} (h : s.isClosed = true) : s.close = s := if_pos h

/-! ## Acts that come to something -/

section Cases

variable {s : WatchService} {k : KeyId} {key : WatchKey}

/-- a look at a key that was given up, or with a service that was closed, ends the worker -/
theorem observe_stale (hk : s.key? k = some key) (h : key.valid = false ∨ s.isClosed = true) (seen : Option Time) :
    s.observe k seen = s.retire k := by
  unfold observe
  rw [hk]
  rcases h with h | h <;> simp [h]

/-- a look that finds nothing of interest -/
theorem observe_calm (hk : s.key? k = some key) (hv : key.valid = true) (hc : s.isClosed = false) {seen : Option Time}
    (he : key.events seen = []) : s.observe k seen = s.update k (·.see seen) := by
  simp [observe, hk, hv, hc, he]

/-- a look that signals the key -/
theorem observe_telling (hk : s.key? k = some key) (hv : key.valid = true) (hc : s.isClosed = false)
    {seen : Option Time} (he : key.events seen ≠ []) :
    s.observe k seen = ((s.update k (·.see seen)).signal k (key.events seen)).retire k := by
  simp [observe, hk, hv, hc, he]

theorem poll_cases (s : WatchService) :
    s.poll = (none, s) ∨ ∃ k rest, s.isClosed = false ∧ s.ready = k :: rest ∧
      s.poll = (some k, { s with ready := rest }) := by
  unfold poll
  split
  · exact .inl rfl
  · next hc =>
    split
    · exact .inl rfl
    · next k rest hr => exact .inr ⟨k, rest, by simpa using hc, hr, rfl⟩

/-- a take leaves the service as a poll does -/
theorem take_eq_poll (s : WatchService) : s.take.2 = s.poll.2 := by
  unfold take
  split
  · next hc => simp [poll, hc]
  · rfl

theorem reset_cases (s : WatchService) (k : KeyId) (now : Nat) :
    s.reset k now = (false, s) ∨ ∃ key, s.key? k = some key ∧ key.valid = true ∧ s.isClosed = false ∧
      key.signalled = true ∧ s.reset k now = (true, (s.update k (·.resume)).start k now) := by
  unfold reset
  cases hk : s.key? k with
  | none => exact .inl rfl
  | some key =>
    dsimp only
    split
    · exact .inl rfl
    · next h =>
      simp only [Bool.or_eq_true, Bool.not_eq_true', not_or, Bool.not_eq_false, Bool.not_eq_true] at h
      exact .inr ⟨key, rfl, h.1.1, h.1.2, h.2, rfl⟩

theorem cancel_cases (s : WatchService) (k : KeyId) :
    s.cancel k = s ∨ ∃ key, s.key? k = some key ∧ key.valid = true ∧
      s.cancel k = { s.update k (·.invalidate) with live := s.live.filter (· ≠ k) } := by
  unfold cancel
  cases hk : s.key? k with
  | none => exact .inl rfl
  | some key =>
    dsimp only
    split
    · exact .inl rfl
    · next h => exact .inr ⟨key, rfl, by simpa using h, rfl⟩

theorem takeEvents_snd (s : WatchService) (k : KeyId) :
    (s.takeEvents k).2 = s ∨ (s.takeEvents k).2 = s.update k fun key => key.takeEvents.2 := by
  unfold takeEvents
  split
  · exact .inl rfl
  · exact .inr rfl

end Cases

/-! ## What every run keeps -/

/-- the books of a service are in order: only keys that exist are live, queued or looked at, each by one worker at most
and none while it is signalled; while the service is open, the live keys are the valid ones that are not signalled -/
structure Orderly (s : WatchService) : Prop where
  exists_of : ∀ k, s.Holds k → k < s.keys.size
  once : (s.workers.map Worker.key).Nodup
  quiet : ∀ k key, s.key? k = some key → s.Working k → key.signalled = false
  standing : s.isClosed = false → ∀ k key, s.key? k = some key → (k ∈ s.live ↔ key.valid = true ∧ key.signalled = false)

namespace Orderly

variable {s : WatchService} (h : s.Orderly) (k : KeyId)

theorem new (space : NamespaceId) (interval : Nat) : (WatchService.new space interval).Orderly := by
  refine ⟨?_, List.nodup_nil, ?_, ?_⟩
  · simp [WatchService.new, Holds, Working]
  · simp [WatchService.new, Working]
  · simp [WatchService.new, key?]

include h

/-- a change that leaves a key as valid and as signalled as it was -/
theorem update {f : WatchKey → WatchKey} (hv : ∀ key, (f key).valid = key.valid)
    (hs : ∀ key, (f key).signalled = key.signalled) : (s.update k f).Orderly := by
  have before : ∀ j key, (s.update k f).key? j = some key → ∃ old, s.key? j = some old ∧ key.valid = old.valid ∧
      key.signalled = old.signalled := by
    intro j key hj
    rw [key?_update] at hj
    split at hj
    · obtain ⟨old, hold, rfl⟩ := Option.map_eq_some_iff.1 hj
      exact ⟨old, hold, hv old, hs old⟩
    · exact ⟨key, hj, rfl, rfl⟩
  refine ⟨fun j hj => ?_, h.once, fun j key hj hw => ?_, fun hc j key hj => ?_⟩
  · rw [size_update]
    exact h.exists_of j hj
  · obtain ⟨old, hold, -, hsig⟩ := before j key hj
    rw [hsig]
    exact h.quiet j old hold hw
  · obtain ⟨old, hold, hval, hsig⟩ := before j key hj
    rw [hval, hsig]
    exact h.standing hc j old hold

theorem retire : (s.retire k).Orderly := by
  refine ⟨fun j hj => ?_, ?_, fun j key hj hw => ?_, h.standing⟩
  · rw [Holds, working_retire] at hj
    exact h.exists_of j (hj.imp_right (Or.imp_right And.left))
  · exact h.once.sublist (List.filter_sublist.map _)
  · exact h.quiet j key hj ((working_retire s k j).1 hw).1

theorem advance (stop : Nat) : (s.advance stop).Orderly := by
  refine ⟨fun j hj => ?_, ?_, fun j key hj hw => ?_, h.standing⟩
  · rw [Holds, working_advance] at hj
    exact h.exists_of j hj
  · rw [keys_advance]
    exact h.once
  · exact h.quiet j key hj ((working_advance s j stop).1 hw)

omit h in
theorem nodup_start {k : KeyId} (once : (s.workers.map Worker.key).Nodup) (idle : ¬s.Working k) (now : Nat) :
    ((s.start k now).workers.map Worker.key).Nodup := by
  rw [WatchService.start, List.map_append, List.nodup_append]
  refine ⟨once, List.pairwise_singleton _ _, ?_⟩
  rintro a ha b hb rfl
  obtain rfl := List.mem_singleton.1 hb
  exact idle ((working_iff_mem _ _).2 ha)

theorem register (path : AbsolutePath) (interest : List EventKind) (seen : Option Time) (now : Nat) :
    (s.register path interest seen now).2.Orderly := by
  have fresh : ¬s.Working s.keys.size := fun hw => Nat.lt_irrefl _ (h.exists_of _ (.inr (.inr hw)))
  have size : (s.register path interest seen now).2.keys.size = s.keys.size + 1 := Array.size_push _
  refine ⟨fun j hj => ?_, nodup_start h.once fresh now, fun j key hj hw => ?_, fun hc j key hj => ?_⟩
  · rw [size]
    rcases (holds_start _ _ _ _).1 hj with hj | rfl
    · exact Nat.lt_succ_of_lt (h.exists_of j hj)
    · exact Nat.lt_succ_self _
  · rw [key?_register] at hj
    split at hj
    · cases hj
      rfl
    · next hne => exact h.quiet j key hj (((working_start _ _ _ _).1 hw).resolve_right hne)
  · rw [key?_register] at hj
    rw [WatchService.register, mem_live_start]
    split at hj
    · next heq =>
      cases hj
      simp [heq, WatchKey.new]
    · next hne => simpa [hne] using h.standing hc j key hj

/-- a key out of the live table, signalled and queued, and its worker gone -/
theorem signal {k : KeyId} {key : WatchKey} (hk : s.key? k = some key) (events : List WatchEvent) :
    ((s.signal k events).retire k).Orderly := by
  refine ⟨fun j hj => ?_, ?_, fun j other hj hw => ?_, fun hc j other hj => ?_⟩
  · have hj : j ∈ s.live ∨ (j ∈ s.ready ∨ s.Working j) ∨ j = k := by
      rcases hj with hj | hj | hj
      · exact .inl (List.mem_filter.1 hj).1
      · exact .inr ((List.mem_append.1 hj).imp .inl List.mem_singleton.1)
      · exact .inr (.inl (.inr ((working_retire _ _ _).1 hj).1))
    show j < (s.update k _).keys.size
    rw [size_update]
    rcases hj with hj | hj | rfl
    · exact h.exists_of j (.inl hj)
    · exact h.exists_of j (.inr hj)
    · exact key?_lt hk
  · exact h.once.sublist (List.filter_sublist.map _)
  · obtain ⟨hw, hne⟩ := (working_retire _ _ _).1 hw
    rw [key?_retire, key?_signal, key?_update_ne _ _ _ _ hne] at hj
    exact h.quiet j other hj hw
  · rw [key?_retire, key?_signal, key?_update] at hj
    have live : j ∈ ((s.signal k events).retire k).live ↔ j ∈ s.live ∧ j ≠ k := by
      simp [WatchService.signal, WatchService.retire]
    rw [live]
    split at hj
    · next heq =>
      obtain ⟨old, -, rfl⟩ := Option.map_eq_some_iff.1 hj
      simp [heq, WatchKey.signal]
    · next hne => simpa [hne] using h.standing hc j other hj

theorem observe (seen : Option Time) : (s.observe k seen).Orderly := by
  cases hk : s.key? k with
  | none =>
    rw [WatchService.observe, hk]
    exact h
  | some key =>
    by_cases hstale : key.valid = false ∨ s.isClosed = true
    · rw [observe_stale hk hstale]
      exact h.retire k
    · simp only [not_or, Bool.not_eq_false, Bool.not_eq_true] at hstale
      have looked : (s.update k (·.see seen)).Orderly := h.update k (fun _ => rfl) (fun _ => rfl)
      by_cases he : key.events seen = []
      · rw [observe_calm hk hstale.1 hstale.2 he]
        exact looked
      · rw [observe_telling hk hstale.1 hstale.2 he]
        exact looked.signal (show _ = some (key.see seen) by simp [hk]) _

theorem poll : s.poll.2.Orderly := by
  obtain hp | ⟨k, rest, -, hr, hp⟩ := poll_cases s
  · rw [hp]
    exact h
  · rw [hp]
    refine ⟨fun j hj => ?_, h.once, h.quiet, h.standing⟩
    refine h.exists_of j (hj.imp_right (Or.imp_left fun hj => ?_))
    rw [hr]
    exact List.mem_cons_of_mem k hj

theorem reset (now : Nat) : (s.reset k now).2.Orderly := by
  obtain hr | ⟨key, hk, hv, hc, hs, hr⟩ := reset_cases s k now
  · rw [hr]
    exact h
  · rw [hr]
    have idle : ¬s.Working k := fun hw => absurd (h.quiet k key hk hw) (by simp [hs])
    refine ⟨fun j hj => ?_, nodup_start h.once idle now, fun j other hj hw => ?_, fun _ j other hj => ?_⟩
    · show j < (s.update k _).keys.size
      rw [size_update]
      rcases (holds_start _ _ _ _).1 hj with hj | rfl
      · exact h.exists_of j hj
      · exact key?_lt hk
    · rw [key?_start, key?_update] at hj
      split at hj
      · obtain ⟨old, -, rfl⟩ := Option.map_eq_some_iff.1 hj
        rfl
      · next hne => exact h.quiet j other hj (((working_start _ _ _ _).1 hw).resolve_right hne)
    · rw [key?_start, key?_update] at hj
      rw [mem_live_start, live_update]
      split at hj
      · next heq =>
        obtain ⟨old, hold, rfl⟩ := Option.map_eq_some_iff.1 hj
        rw [heq, hk] at hold
        cases hold
        simp [heq, WatchKey.resume, hv]
      · next hne => simpa [hne] using h.standing hc j other hj

theorem cancel : (s.cancel k).Orderly := by
  obtain hx | ⟨key, hk, hv, hx⟩ := cancel_cases s k
  · rw [hx]
    exact h
  · rw [hx]
    refine ⟨fun j hj => ?_, h.once, fun j other hj hw => ?_, fun hc j other hj => ?_⟩
    · show j < (s.update k _).keys.size
      rw [size_update]
      exact h.exists_of j (hj.imp_left fun hj => (List.mem_filter.1 hj).1)
    · change (s.update k _).key? j = some other at hj
      rw [key?_update] at hj
      split at hj
      · obtain ⟨old, hold, rfl⟩ := Option.map_eq_some_iff.1 hj
        exact h.quiet j old hold hw
      · exact h.quiet j other hj hw
    · change (s.update k _).key? j = some other at hj
      rw [key?_update] at hj
      simp only [List.mem_filter, decide_eq_true_eq]
      split at hj
      · next heq =>
        obtain ⟨old, -, rfl⟩ := Option.map_eq_some_iff.1 hj
        simp [heq, WatchKey.invalidate]
      · next hne => simpa [hne] using h.standing hc j other hj

theorem close : s.close.Orderly := by
  cases hc : s.isClosed with
  | true =>
    rw [close_closed hc]
    exact h
  | false =>
    obtain ⟨keys, hsize, heq⟩ := close_eq hc
    refine ⟨fun j hj => ?_, ?_, fun j key hj hw => ?_, ?_⟩
    · rw [heq] at hj ⊢
      refine hsize ▸ h.exists_of j ?_
      rcases hj with hj | hj
      · cases hj
      · exact .inr hj
    · rw [heq]
      exact h.once
    · have hw : s.Working j := by
        rw [heq] at hw
        exact hw
      rw [key?_close] at hj
      split at hj
      · obtain ⟨old, hold, rfl⟩ := Option.map_eq_some_iff.1 hj
        exact h.quiet j old hold hw
      · exact h.quiet j key hj hw
    · rw [heq]
      exact nofun

theorem after (act : Act) : (s.after act).Orderly := by
  cases act with
  | register path interest seen now =>
    simp only [WatchService.after]
    split
    · exact h
    · exact h.register path interest seen now
  | look k seen =>
    simp only [WatchService.after]
    split
    · exact h.observe k seen
    · exact h
  | quit k => exact h.retire k
  | pass stop => exact h.advance stop
  | poll => exact h.poll
  | take =>
    rw [WatchService.after, take_eq_poll]
    exact h.poll
  | read k =>
    obtain hr | hr := takeEvents_snd s k
    · rw [WatchService.after, hr]
      exact h
    · rw [WatchService.after, hr]
      exact h.update k (fun _ => rfl) (fun _ => rfl)
  | reset k now => exact h.reset k now
  | cancel k => exact h.cancel k
  | close => exact h.close

theorem run (acts : List Act) : (s.run acts).Orderly := by
  induction acts generalizing s with
  | nil => exact h
  | cons act rest ih => exact ih (h.after act)

end Orderly

/-- **The books of a service are in order in every run.** -/
theorem run_orderly (space : NamespaceId) (interval : Nat) (acts : List Act) :
    ((new space interval).run acts).Orderly :=
  (Orderly.new space interval).run acts

end WatchService

end MountSpace

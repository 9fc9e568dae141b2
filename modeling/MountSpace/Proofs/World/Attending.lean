/-
Who looks at which key. A registration and a reset make a key live and start a worker for it, a signal takes it out of
the live table and ends its worker, a cancellation takes it out and leaves its worker to find that out. So the live
table of an open service holds the keys that are valid and not signalled, and each of them has one worker: one at most,
because a key that gets a worker had none before, and one at least, because a worker goes on until it has signalled its
key or finds that it is not wanted, and none but a closed namespace sends it away.

- `live_table`: in every run of the world the live table of an open service is right (`LiveTable`).
-/
import MountSpace.Proofs.World.Books

namespace MountSpace

namespace WatchService

/-- the keys that are valid and not signalled are live, by number and by count, and each has one worker; the others are
left alone by all workers, and reset succeeds on those that are valid and signalled -/
structure LiveTable (s : WatchService) : Prop where
  live : ∀ k, k ∈ s.live ↔ ∃ key, s.key? k = some key ∧ key.valid = true ∧ key.signalled = false
  counted : s.live.length = s.keys.countP fun key => key.valid && !key.signalled
  attended : ∀ k ∈ s.live, (s.workers.map Worker.key).count k = 1
  /-- whatever a worker sees, and whenever it has its answer: a key that is not its own, or is signalled or given up,
  keeps its events, its signal and its places in the queue -/
  spared : ∀ b k key, b.worker?.isSome = true → s.key? k = some key →
    b.worker? ≠ some k ∨ key.signalled = true ∨ key.valid = false →
    ∃ next, (s.beat b).key? k = some next ∧ next.outbox = key.outbox ∧ next.signalled = key.signalled ∧
      (s.beat b).ready.count k = s.ready.count k
  resets : ∀ k now, (s.reset k now).1 = true ↔
    ∃ key, s.key? k = some key ∧ key.valid = true ∧ key.signalled = true

/-! ## What one beat keeps -/

/-- a key is live once at most, and has a worker as long as it is wanted -/
structure Attended (s : WatchService) (k : KeyId) (key : WatchKey) : Prop where
  once : s.live.count k ≤ 1
  working : s.isClosed = false → key.valid = true → key.signalled = false → s.Working k

section Kept

variable {s t : WatchService} {k : KeyId} {key next : WatchKey} {b : Beat}

theorem Attended.registered (horderly : s.Orderly) (path : AbsolutePath) (interest : List EventKind)
    (seen : Option Time) (now : Nat) :
    (s.register path interest seen now).2.Attended s.keys.size (.new path interest seen) := by
  have fresh : s.keys.size ∉ s.live := fun h => Nat.lt_irrefl _ (horderly.exists_of _ (.inl h))
  refine ⟨?_, fun _ _ _ => (working_start _ _ _ _).2 (.inr rfl)⟩
  show (s.live ++ [s.keys.size]).count s.keys.size ≤ 1
  rw [List.count_append, List.count_eq_zero_of_not_mem fresh, List.count_singleton_self]

theorem Attended.meets (h : s.Attended k key) (horderly : s.Orderly) (hk : s.key? k = some key)
    (hm : s.Meets k key b t) (quits : b = .act (.quit k) → s.isClosed = true) (hn : t.key? k = some next) :
    t.Attended k next := by
  cases hm with
  | spared alone =>
    rw [alone.key, hk] at hn
    cases hn
    exact ⟨alone.live ▸ h.once, fun hc hv hs => alone.working.2 (h.working (alone.isClosed ▸ hc) hv hs)⟩
  | quit =>
    -- none but a closed namespace sends a worker away
    exact ⟨h.once, fun hc => absurd (quits rfl) (by simp [show s.isClosed = false from hc])⟩
  | stale working gone =>
    obtain rfl := Option.some.inj (hk.symm.trans hn)
    refine ⟨h.once, fun hc hv => ?_⟩
    rcases gone with hg | hg
    · exact absurd hv (by simp [hg])
    · exact absurd hg (by simp [show s.isClosed = false from hc])
  | calm found working valid opened quiet => exact ⟨h.once, fun _ _ _ => working⟩
  | @told _ seen found working valid opened news =>
    obtain rfl : next = (key.see seen).signal (key.events seen) := by
      simpa [hk, eq_comm] using hn
    exact ⟨(List.filter_sublist.count_le k).trans h.once, fun _ _ hs => absurd hs.symm Bool.false_ne_true⟩
  | late working gone remembers live ready isClosed =>
    obtain rfl := Option.some.inj (remembers.symm.trans hn)
    refine ⟨live ▸ h.once, fun hc hv => ?_⟩
    rcases gone with hg | hg
    · exact absurd hv (by simp [WatchKey.see, hg])
    · exact absurd hg (by simp [← isClosed, hc])
  | handed asked opened first =>
    obtain rfl := Option.some.inj (hk.symm.trans hn)
    exact ⟨h.once, h.working⟩
  | read =>
    obtain rfl := eq_of_changed hk hn
    exact ⟨h.once, h.working⟩
  | @reset now valid opened signalled =>
    -- a key that is signalled is not live
    have absent : k ∉ s.live := fun hl => absurd ((horderly.standing opened k key hk).1 hl).2 (by simp [signalled])
    refine ⟨?_, fun _ _ _ => (working_start _ _ _ _).2 (.inr rfl)⟩
    show (s.live ++ [k]).count k ≤ 1
    rw [List.count_append, List.count_eq_zero_of_not_mem absent, List.count_singleton_self]
  | cancel valid =>
    obtain rfl := eq_of_changed hk hn
    exact ⟨(List.filter_sublist.count_le k).trans h.once, fun _ hv => absurd hv Bool.false_ne_true⟩
  | close opened =>
    obtain ⟨keys, -, heq⟩ := close_eq opened
    rw [heq]
    exact ⟨Nat.zero_le 1, fun hc => absurd hc.symm Bool.false_ne_true⟩

/-- a worker leaves a key alone that is not its own, or is signalled or given up -/
theorem Meets.spares (horderly : s.Orderly) (hk : s.key? k = some key) (hm : s.Meets k key b t)
    (hb : b.worker?.isSome = true) (hother : b.worker? ≠ some k ∨ key.signalled = true ∨ key.valid = false) :
    ∃ next, t.key? k = some next ∧ next.outbox = key.outbox ∧ next.signalled = key.signalled ∧
      t.ready.count k = s.ready.count k := by
  -- a look that finds something is a look of the key's own worker, which would be wanted
  have wanted {seen : Option Time} (found : b.found? k = some seen) (working : s.Working k)
      (valid : key.valid = true) : False := by
    rcases hother with hne | hs | hv
    · exact hne (Beat.worker?_of_found found)
    · rw [horderly.quiet k key hk working] at hs
      cases hs
    · rw [valid] at hv
      cases hv
  cases hm with
  | spared alone => exact ⟨key, alone.key.trans hk, rfl, rfl, alone.queued⟩
  | quit => exact ⟨key, hk, rfl, rfl, rfl⟩
  | stale working gone => exact ⟨key, hk, rfl, rfl, rfl⟩
  | calm found working valid => exact (wanted found working valid).elim
  | told found working valid => exact (wanted found working valid).elim
  | late working gone remembers live ready => exact ⟨_, remembers, rfl, rfl, by rw [ready]⟩
  | handed asked => rcases asked with rfl | rfl <;> cases hb
  | read => cases hb
  | reset => cases hb
  | cancel => cases hb
  | close => cases hb

end Kept

/-! ## The live table -/

/-- keys told by their numbers are counted as they are listed -/
theorem countP_keys (s : WatchService) (p : WatchKey → Bool) :
    s.keys.countP p = (List.range s.keys.size).countP fun k => (s.key? k).any p := by
  have listed : ∀ l : List WatchKey, l.countP p = (List.range l.length).countP fun k => l[k]?.any p := by
    intro l
    induction l with
    | nil => rfl
    | cons key rest ih =>
      rw [List.length_cons, List.range_succ_eq_map, List.countP_cons, List.countP_cons, List.countP_map, ih]
      rfl
  have table := listed s.keys.toList
  simp only [Array.countP_toList, Array.length_toList, Array.getElem?_toList] at table
  exact table

end WatchService

namespace World

open WatchService

theorem run_attended (clock : Time) (moves : List Move) {n : Nat} {s : WatchService}
    (hs : ((World.new clock).run moves).services[n]? = some s) {k : KeyId} {key : WatchKey}
    (hk : s.key? k = some key) : s.Attended k key :=
  run_keeps (fun _ path interest seen now horderly => Attended.registered horderly path interest seen now)
    (fun _ _ _ _ _ _ horderly hk h hm quits hn => h.meets horderly hk hm quits hn)
    (sound_new clock) nofun moves hs hk

/-- **The live table.** Whatever happens in the world, the live table of a service that is open holds exactly the keys
that are valid and not signalled, each of them has exactly one worker, no worker touches any other key, and reset
succeeds exactly on the keys that are valid and signalled. -/
theorem live_table (clock : Time) (moves : List Move) {n : Nat} {s : WatchService}
    (hs : ((World.new clock).run moves).services[n]? = some s) (hopen : s.isClosed = false) : s.LiveTable := by
  have horderly : s.Orderly := (run_sound clock moves).orderly n s hs
  have attended := fun {k key} (hk : s.key? k = some key) => run_attended clock moves hs hk
  have live : ∀ k, k ∈ s.live ↔ ∃ key, s.key? k = some key ∧ key.valid = true ∧ key.signalled = false := by
    intro k
    constructor
    · intro hl
      obtain ⟨key, hk⟩ : ∃ key, s.key? k = some key := ⟨_, Array.getElem?_eq_getElem (horderly.exists_of k (.inl hl))⟩
      exact ⟨key, hk, (horderly.standing hopen k key hk).1 hl⟩
    · rintro ⟨key, hk, hv⟩
      exact (horderly.standing hopen k key hk).2 hv
  refine ⟨live, ?_, fun k hl => ?_, fun b k key hb hk hother => ?_, fun k now => ?_⟩
  · have once : s.live.Nodup := by
      refine List.nodup_iff_count_le_one.2 fun k => ?_
      by_cases hl : k ∈ s.live
      · obtain ⟨key, hk, -⟩ := (live k).1 hl
        exact (attended hk).once
      · rw [List.count_eq_zero_of_not_mem hl]
        exact Nat.zero_le 1
    rw [countP_keys, List.countP_eq_length_filter]
    refine ((List.perm_ext_iff_of_nodup once (List.nodup_range.filter _)).2 fun k => ?_).length_eq
    rw [live k, List.mem_filter, List.mem_range, Option.any_eq_true]
    constructor
    · rintro ⟨key, hk, hv, hs⟩
      exact ⟨key?_lt hk, key, hk, by simp [hv, hs]⟩
    · rintro ⟨-, key, hk, hv⟩
      simp only [Bool.and_eq_true, Bool.not_eq_true'] at hv
      exact ⟨key, hk, hv⟩
  · obtain ⟨key, hk, hv, hs⟩ := (live k).1 hl
    have working := (working_iff_mem s k).1 ((attended hk).working hopen hv hs)
    exact List.count_eq_one_of_mem horderly.once working
  · exact (beat_meets hk b).spares horderly hk hb hother
  · obtain hr | ⟨key, hk, hv, -, hs, hr⟩ := reset_cases s k now
    · rw [hr]
      refine ⟨nofun, ?_⟩
      rintro ⟨key, hk, hv, hs⟩
      simp [WatchService.reset, hk, hv, hs, hopen] at hr
    · rw [hr]
      exact ⟨fun _ => ⟨key, hk, hv, hs⟩, fun _ => rfl⟩

/-- the path `/a` of the first namespace -/
def pathA : NamedPath := ⟨⟨1, ["a"]⟩, rfl⟩

/-- three keys that are told of a change: the first is handed out, read and reset, the second is given up while it is
queued, the third stays in the queue -/
def busy : List Move :=
  [.createNamespace {}, .watch 1, .register 0 ⟨1, []⟩ [.modified], .register 0 ⟨1, ["a"]⟩ [.created],
    .register 0 ⟨1, []⟩ [.modified], .operate 1 (.createDirectory pathA), .look 0 0, .look 0 1, .look 0 2,
    .poll 0, .read 0 0, .reset 0 0, .cancel 0 1]

theorem busy_live : ∃ s, ((new 0).run busy).services[0]? = some s ∧ s.isClosed = false ∧
    (∀ k, k ∈ s.live ↔ k = 0) ∧ s.ready = [1, 2] ∧ s.LiveTable := by
  let s := (((new 0).run busy).services[0]?).get (by decide)
  have hs : ((new 0).run busy).services[0]? = some s := (Option.some_get _).symm
  have hopen : s.isClosed = false := by decide
  have live : s.live = [0] := by decide
  exact ⟨s, hs, hopen, fun k => by rw [live, List.mem_singleton], by decide, live_table 0 busy hs hopen⟩

end World

end MountSpace

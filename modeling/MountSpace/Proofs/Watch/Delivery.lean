/-
What the holder of a key learns. A key passes through four hands: its worker compares what it sees with what it saw
last and puts the event into the outbox, the queue hands the key to its holder, the holder reads the outbox and resets
the key, and a new worker goes on from the state seen last. Nothing is compared between the signal and the reset, so a
change meanwhile shows as one transition, from the state before it to the one after.

A holder is in the cycle if he reads a key once each time it was handed to him, and resets it only then; what other
holders do with other keys, and when anything happens, is free (`phase?`). Where he stands fixes the key's situation
(`InCycle`): the one batch there can be is in the outbox until he reads, and the key is queued, once, until it is
handed out.

- `register_delivers`: what is read from a key, with what is left to read, are the transitions between the states its
  workers saw, from the state at registration on, one event in a batch.
-/
import Mathlib.Data.List.Chain
import MountSpace.Proofs.Watch.Runs

namespace MountSpace

/-! ## Transitions -/

/-- the kinds of change along some states, from a first one on -/
def transitions (last : Option Time) : List (Option Time) → List EventKind
  | [] => []
  | seen :: rest => (transition last seen).toList ++ transitions seen rest

/-- the batches that tell of the transitions of interest along some states, one event in each -/
def deliveries (path : AbsolutePath) (interest : List EventKind) (last : Option Time) (states : List (Option Time)) :
    List (List WatchEvent) :=
  ((transitions last states).filter (· ∈ interest)).map fun kind => [⟨kind, path, 1⟩]

theorem transitions_cons (last seen : Option Time) (rest : List (Option Time)) :
    transitions last (seen :: rest) = transitions last [seen] ++ transitions seen rest := by
  simp [transitions]

theorem deliveries_cons (path : AbsolutePath) (interest : List EventKind) (last seen : Option Time)
    (rest : List (Option Time)) : deliveries path interest last (seen :: rest) =
      deliveries path interest last [seen] ++ deliveries path interest seen rest := by
  rw [deliveries, transitions_cons, List.filter_append, List.map_append]
  rfl

namespace WatchKey

/-- the batch of a key that nobody has read, if there is one -/
def pending (key : WatchKey) : List (List WatchEvent) := if key.outbox = [] then [] else [key.outbox]

/-- a look tells of one transition at most -/
theorem deliveries_look (key : WatchKey) (seen : Option Time) :
    deliveries key.path key.interest key.lastSeen [seen] = if key.events seen = [] then [] else [key.events seen] := by
  rw [deliveries, transitions, transitions, List.append_nil, events]
  cases transition key.lastSeen seen with
  | none => rfl
  | some kind => by_cases hk : kind ∈ key.interest <;> simp [hk]

end WatchKey

namespace WatchService

/-! ## The history of a key -/

/-- a worker is there that compares what it sees -/
def Looking (s : WatchService) (k : KeyId) : Prop :=
  s.Working k ∧ s.isClosed = false ∧ (s.key? k).any (·.valid)

instance (s : WatchService) (k : KeyId) : Decidable (s.Looking k) := inferInstanceAs (Decidable (_ ∧ _ ∧ _))

/-- the state that a worker of a key sees in an act -/
def seen? (s : WatchService) (k : KeyId) : Act → Option (Option Time)
  | .look j seen => if j = k ∧ s.Looking k then some seen else none
  | _ => none

/-- the batch that is read from a key in an act -/
def batch? (s : WatchService) (k : KeyId) : Act → Option (List WatchEvent)
  | .read j => if j = k then some (s.takeEvents k).1 else none
  | _ => none

/-- the key that is handed out in an act -/
def handed? (s : WatchService) : Act → Option KeyId
  | .poll => s.poll.1
  | .take => s.take.1.toOption.join
  | _ => none

theorem handed?_take (s : WatchService) : s.handed? .take = s.poll.1 := by
  show s.take.1.toOption.join = _
  unfold take
  split
  · next hc =>
    rw [poll, if_pos hc]
    rfl
  · rfl

/-- the states that the workers of a key see, in order -/
def observed (s : WatchService) (k : KeyId) : List Act → List (Option Time)
  | [] => []
  | act :: rest => (s.seen? k act).toList ++ (s.after act).observed k rest

/-- the batches that are read from a key, in order -/
def batches (s : WatchService) (k : KeyId) : List Act → List (List WatchEvent)
  | [] => []
  | act :: rest => (s.batch? k act).toList ++ (s.after act).batches k rest

/-- where the holder of a key stands: he has nothing to do, it was handed to him, he has read it -/
inductive Phase where
  | idle | handed | read
  deriving DecidableEq, Repr

/-- where the holder of a key stands after an act; nowhere if he reads a key that was not handed to him, or resets one
that he has not read -/
def Phase.next? (phase : Phase) (s : WatchService) (k : KeyId) : Act → Option Phase
  | .read j => if j ≠ k then some phase else if phase = .handed then some .read else none
  | .reset j now =>
    if j ≠ k then some phase
    else if phase ≠ .read then none
    else if (s.reset k now).1 then some .idle else some .read
  | act => some (if s.handed? act = some k then .handed else phase)

/-- where the holder of a key stands after some acts, if he keeps to the cycle -/
def phase? (s : WatchService) (k : KeyId) (phase : Phase) : List Act → Option Phase
  | [] => some phase
  | act :: rest => (phase.next? s k act).bind fun next => (s.after act).phase? k next rest

/-! ## The situation of a key -/

/-- the situation of a key whose holder is in the cycle -/
structure InCycle (s : WatchService) (k : KeyId) (phase : Phase) (key : WatchKey) : Prop where
  is : s.key? k = some key
  /-- a key that is not signalled has told nothing -/
  calm : key.signalled = false → phase = .idle ∧ key.outbox = []
  /-- a key that is signalled has something to tell until it is read -/
  telling : key.signalled = true → ¬s.Working k ∧ (key.outbox = [] ↔ phase = .read)
  /-- a key that is signalled is queued until it is handed out -/
  queued : s.ready.count k = if key.signalled = true ∧ phase = .idle then 1 else 0

/-- nothing happened to a key, except that it may have been given up or may have lost a worker -/
structure Spares (s : WatchService) (k : KeyId) (next : WatchService) : Prop where
  key : ∀ key, s.key? k = some key → ∃ valid, next.key? k = some { key with valid }
  queued : next.ready.count k = s.ready.count k
  working : next.Working k → s.Working k

namespace Spares

variable {s mid next : WatchService} {k j : KeyId}

theorem refl (s : WatchService) (k : KeyId) : s.Spares k s := ⟨fun key h => ⟨key.valid, h⟩, rfl, id⟩

theorem trans (h : s.Spares k mid) (hn : mid.Spares k next) : s.Spares k next := by
  refine ⟨fun key hk => ?_, hn.queued.trans h.queued, fun hw => h.working (hn.working hw)⟩
  obtain ⟨valid, hmid⟩ := h.key key hk
  obtain ⟨still, hnext⟩ := hn.key _ hmid
  exact ⟨still, hnext⟩

theorem update (h : k ≠ j) (f : WatchKey → WatchKey) : s.Spares k (s.update j f) :=
  ⟨fun key hk => ⟨key.valid, (key?_update_ne _ _ _ _ h).trans hk⟩, rfl, id⟩

theorem retire (s : WatchService) (k j : KeyId) : s.Spares k (s.retire j) :=
  ⟨fun key hk => ⟨key.valid, hk⟩, rfl, fun hw => ((working_retire _ _ _).1 hw).1⟩

theorem start (h : k ≠ j) (now : Nat) : s.Spares k (s.start j now) :=
  ⟨fun key hk => ⟨key.valid, hk⟩, rfl, fun hw => ((working_start _ _ _ _).1 hw).resolve_right h⟩

theorem signal (h : k ≠ j) (events : List WatchEvent) : s.Spares k (s.signal j events) := by
  refine ⟨(update h _).key, ?_, id⟩
  show (s.ready ++ [j]).count k = _
  rw [List.count_append, List.count_singleton, if_neg (by simpa using h.symm), Nat.add_zero]

theorem register {key : WatchKey} (hk : s.key? k = some key) (path : AbsolutePath) (interest : List EventKind)
    (seen : Option Time) (now : Nat) : s.Spares k (s.register path interest seen now).2 := by
  have hne : k ≠ s.keys.size := Nat.ne_of_lt (key?_lt hk)
  refine ⟨fun key hk => ⟨key.valid, ?_⟩, rfl, fun hw => ((working_start _ _ _ _).1 hw).resolve_right hne⟩
  rw [key?_register, if_neg hne]
  exact hk

theorem observe (h : k ≠ j) (seen : Option Time) : s.Spares k (s.observe j seen) := by
  unfold WatchService.observe
  split
  · exact .refl s k
  · split
    · exact .retire s k j
    · split
      · exact .update h _
      · exact ((Spares.update h _).trans (.signal h _)).trans (.retire _ k j)

theorem poll (h : s.poll.1 ≠ some k) : s.Spares k s.poll.2 := by
  obtain hp | ⟨j, rest, -, hr, hp⟩ := poll_cases s
  · rw [hp]
    exact .refl s k
  · rw [hp] at h ⊢
    have hne : j ≠ k := fun heq => h (congrArg some heq)
    refine ⟨fun key hk => ⟨key.valid, hk⟩, ?_, id⟩
    rw [hr, List.count_cons_of_ne hne]

theorem reset (h : k ≠ j) (now : Nat) : s.Spares k (s.reset j now).2 := by
  obtain hr | ⟨-, -, -, -, -, hr⟩ := reset_cases s j now
  · rw [hr]
    exact .refl s k
  · rw [hr]
    exact (Spares.update h _).trans (.start h now)

theorem takeEvents (h : k ≠ j) : s.Spares k (s.takeEvents j).2 := by
  obtain hr | hr := takeEvents_snd s j
  · rw [hr]
    exact .refl s k
  · rw [hr]
    exact .update h _

theorem cancel (s : WatchService) (k j : KeyId) : s.Spares k (s.cancel j) := by
  obtain hc | ⟨key, -, -, hc⟩ := cancel_cases s j
  · rw [hc]
    exact .refl s k
  · rw [hc]
    refine ⟨fun key hk => ?_, rfl, id⟩
    change ∃ valid, (s.update j _).key? k = _
    rw [key?_update, hk]
    split
    · exact ⟨false, rfl⟩
    · exact ⟨key.valid, rfl⟩

theorem close (s : WatchService) (k : KeyId) : s.Spares k s.close := by
  cases hc : s.isClosed with
  | true =>
    rw [close_closed hc]
    exact .refl s k
  | false =>
    obtain ⟨keys, -, heq⟩ := close_eq hc
    refine ⟨fun key hk => ?_, by rw [heq], fun hw => by rwa [heq] at hw⟩
    rw [key?_close, hk]
    split
    · exact ⟨false, rfl⟩
    · exact ⟨key.valid, rfl⟩

end Spares

/-- what becomes of a key in an act: it remembers what was seen, if anything was, and what it had to tell and what was
seen are now in the batch that was read, if one was, and in what it has to tell -/
structure Turns (key : WatchKey) (seen : Option (Option Time)) (batch : Option (List WatchEvent)) (next : WatchKey) :
    Prop where
  path : next.path = key.path
  interest : next.interest = key.interest
  last : next.lastSeen = seen.getD key.lastSeen
  told : key.pending ++ deliveries key.path key.interest key.lastSeen seen.toList = batch.toList ++ next.pending

namespace InCycle

variable {s next : WatchService} {k : KeyId} {phase : Phase} {key : WatchKey} (h : s.InCycle k phase key)
include h

theorem spared (hs : s.Spares k next) : ∃ key', next.InCycle k phase key' ∧ Turns key none none key' := by
  obtain ⟨valid, hk⟩ := hs.key key h.is
  refine ⟨{ key with valid }, ⟨hk, h.calm, fun ht => ?_, hs.queued.trans h.queued⟩, rfl, rfl, rfl, ?_⟩
  · exact ⟨fun hw => (h.telling ht).1 (hs.working hw), (h.telling ht).2⟩
  · exact List.append_nil _

/-- a key that is looked at is not signalled -/
theorem calm_of_working (hw : s.Working k) : key.signalled = false ∧ phase = .idle ∧ key.outbox = [] := by
  have hs : key.signalled = false := by
    cases hs : key.signalled with
    | false => rfl
    | true => exact absurd hw (h.telling hs).1
  exact ⟨hs, h.calm hs⟩

theorem look (hl : s.Looking k) (seen : Option Time) :
    ∃ key', (s.observe k seen).InCycle k phase key' ∧ Turns key (some seen) none key' := by
  obtain ⟨hw, hc, hv⟩ := hl
  obtain ⟨hs, rfl, ho⟩ := h.calm_of_working hw
  have hv : key.valid = true := by simpa [h.is] using hv
  have hempty : key.pending = [] := if_pos ho
  by_cases he : key.events seen = []
  · refine ⟨key.see seen, ?_, rfl, rfl, rfl, ?_⟩
    · rw [observe_calm h.is hv hc he]
      refine ⟨by simp [h.is], h.calm, fun ht => ?_, h.queued⟩
      exact absurd hs (by simpa [WatchKey.see] using ht)
    · rw [hempty, Option.toList_some, WatchKey.deliveries_look, if_pos he]
      exact hempty.symm
  · refine ⟨(key.see seen).signal (key.events seen), ?_, rfl, rfl, rfl, ?_⟩
    · rw [observe_telling h.is hv hc he]
      refine ⟨by simp [h.is], nofun, fun _ => ⟨?_, ?_⟩, ?_⟩
      · exact fun hw => ((working_retire _ _ _).1 hw).2 rfl
      · exact ⟨fun hn => absurd hn he, nofun⟩
      · have before : s.ready.count k = 0 := by simpa [hs] using h.queued
        show (s.ready ++ [k]).count k = 1
        rw [List.count_append, before, List.count_singleton_self]
    · rw [hempty, Option.toList_some, WatchKey.deliveries_look, if_neg he]
      exact (if_neg he).symm

/-- a key that is handed out was queued once -/
theorem handed (hp : s.poll.1 = some k) :
    ∃ key', s.poll.2.InCycle k .handed key' ∧ Turns key none none key' := by
  obtain hn | ⟨j, rest, -, hr, hn⟩ := poll_cases s
  · rw [hn] at hp
    cases hp
  · rw [hn] at hp ⊢
    cases hp
    have count := h.queued
    rw [hr, List.count_cons_self] at count
    have hs : key.signalled = true ∧ phase = .idle := by
      by_contra hne
      rw [if_neg hne] at count
      cases count
    rw [if_pos hs] at count
    obtain ⟨hw, hread⟩ := h.telling hs.1
    refine ⟨key, ⟨h.is, fun hf => ?_, fun _ => ⟨hw, ?_⟩, ?_⟩, rfl, rfl, rfl, List.append_nil _⟩
    · rw [hs.1] at hf
      cases hf
    · rw [hread, hs.2]
      exact ⟨nofun, nofun⟩
    · show rest.count k = _
      rw [if_neg (by simp)]
      exact Nat.succ.inj count

theorem poll_or_spared : ∃ key', s.poll.2.InCycle k (if s.poll.1 = some k then .handed else phase) key' ∧
    Turns key none none key' := by
  by_cases hp : s.poll.1 = some k
  · rw [if_pos hp]
    exact h.handed hp
  · rw [if_neg hp]
    exact h.spared (.poll hp)

theorem read (hp : phase = .handed) :
    ∃ key', (s.takeEvents k).2.InCycle k .read key' ∧ Turns key none (some (s.takeEvents k).1) key' := by
  subst hp
  have hs : key.signalled = true := by
    cases hs : key.signalled with
    | true => rfl
    | false => exact nomatch (h.calm hs).1
  obtain ⟨hw, hread⟩ := h.telling hs
  have hfull : key.outbox ≠ [] := fun ho => nomatch hread.1 ho
  have htake : s.takeEvents k = (key.outbox, s.update k fun key => key.takeEvents.2) := by
    rw [takeEvents, h.is]
  rw [htake]
  refine ⟨key.takeEvents.2, ⟨by simp [h.is], fun hf => ?_, fun _ => ⟨hw, by simp [WatchKey.takeEvents]⟩, ?_⟩, rfl, rfl,
    rfl, ?_⟩
  · exact absurd (hs.symm.trans hf) nofun
  · have count := h.queued
    rw [if_neg (by simp)] at count
    exact count.trans (if_neg (by simp)).symm
  · show key.pending ++ [] = [key.outbox] ++ []
    rw [WatchKey.pending, if_neg hfull]

theorem reset (hp : phase = .read) (now : Nat) :
    ∃ key', (s.reset k now).2.InCycle k (if (s.reset k now).1 then .idle else .read) key' ∧ Turns key none none key' := by
  subst hp
  obtain hr | ⟨same, hk, -, -, hs, hr⟩ := reset_cases s k now
  · rw [hr]
    exact h.spared (.refl s k)
  · rw [hr]
    obtain rfl : key = same := Option.some.inj (h.is.symm.trans hk)
    have hread : key.outbox = [] := (h.telling hs).2.2 rfl
    refine ⟨key.resume, ⟨by simp [hk], fun _ => ⟨rfl, rfl⟩, nofun, ?_⟩, rfl, rfl, rfl, ?_⟩
    · have count := h.queued
      rw [if_neg (by simp)] at count
      exact count.trans (if_neg (by simp [WatchKey.resume])).symm
    · show key.pending ++ [] = [] ++ []
      rw [WatchKey.pending, if_pos hread]

/-- **One act in the cycle.** -/
theorem after {act : Act} {phase' : Phase} (hp : phase.next? s k act = some phase') :
    ∃ key', (s.after act).InCycle k phase' key' ∧ Turns key (s.seen? k act) (s.batch? k act) key' := by
  cases act with
  | register path interest seen now =>
    cases hp
    simp only [WatchService.after]
    split
    · exact h.spared (.refl s k)
    · exact h.spared (.register h.is path interest seen now)
  | look j seen =>
    obtain rfl : phase = phase' := Option.some.inj hp
    by_cases hl : j = k ∧ s.Looking k
    · obtain ⟨rfl, hl⟩ := hl
      rw [WatchService.after, if_pos hl.1, seen?, if_pos ⟨rfl, hl⟩]
      exact h.look hl seen
    · rw [seen?, if_neg hl]
      refine h.spared ?_
      rw [WatchService.after]
      split
      · next hw =>
        by_cases hj : k = j
        · subst hj
          have hstale : key.valid = false ∨ s.isClosed = true := by
            by_contra hn
            simp only [not_or, Bool.not_eq_false, Bool.not_eq_true] at hn
            exact hl ⟨rfl, hw, hn.2, by simp [h.is, hn.1]⟩
          rw [observe_stale h.is hstale]
          exact .retire s k k
        · exact .observe hj seen
      · exact .refl s k
  | quit j =>
    cases hp
    exact h.spared (.retire s k j)
  | pass stop =>
    cases hp
    exact h.spared ⟨fun key hk => ⟨key.valid, hk⟩, rfl, (working_advance s k stop).1⟩
  | poll =>
    cases hp
    exact h.poll_or_spared
  | take =>
    cases hp
    rw [WatchService.after, take_eq_poll, handed?_take]
    exact h.poll_or_spared
  | read j =>
    by_cases hj : j = k
    · subst hj
      rw [Phase.next?, if_neg (not_not_intro rfl)] at hp
      obtain ⟨hhanded, hp⟩ := Option.ite_none_right_eq_some.1 hp
      cases hp
      rw [batch?, if_pos rfl]
      exact h.read hhanded
    · rw [Phase.next?, if_pos hj] at hp
      cases hp
      rw [batch?, if_neg hj]
      exact h.spared (.takeEvents (Ne.symm hj))
  | reset j now =>
    by_cases hj : j = k
    · subst hj
      rw [Phase.next?, if_neg (not_not_intro rfl)] at hp
      obtain ⟨hread, hp⟩ := Option.ite_none_left_eq_some.1 hp
      rw [← apply_ite some] at hp
      cases hp
      exact h.reset (not_not.1 hread) now
    · rw [Phase.next?, if_pos hj] at hp
      cases hp
      exact h.spared (.reset (Ne.symm hj) now)
  | cancel j =>
    cases hp
    exact h.spared (.cancel s k j)
  | close =>
    cases hp
    exact h.spared (.close s k)

end InCycle

/-- **A run in the cycle.** What a key had to tell at first, and then all that its workers saw, has been read in the end
or is left to read. -/
theorem InCycle.run {s : WatchService} {k : KeyId} {phase last : Phase} {key : WatchKey} (h : s.InCycle k phase key)
    {acts : List Act} (hp : s.phase? k phase acts = some last) :
    ∃ key', (s.run acts).InCycle k last key' ∧
      key.pending ++ deliveries key.path key.interest key.lastSeen (s.observed k acts) =
        s.batches k acts ++ key'.pending := by
  induction acts generalizing s phase key with
  | nil =>
    cases hp
    exact ⟨key, h, List.append_nil _⟩
  | cons act rest ih =>
    obtain ⟨next, hnext, hrest⟩ := Option.bind_eq_some_iff.1 hp
    obtain ⟨mid, hmid, turned⟩ := h.after hnext
    obtain ⟨key', hkey', told⟩ := ih hmid hrest
    refine ⟨key', hkey', ?_⟩
    have split : deliveries key.path key.interest key.lastSeen (s.observed k (act :: rest)) =
        deliveries key.path key.interest key.lastSeen (s.seen? k act).toList ++
          deliveries mid.path mid.interest mid.lastSeen ((s.after act).observed k rest) := by
      rw [turned.path, turned.interest, turned.last, observed]
      cases s.seen? k act with
      | none => rfl
      | some seen => exact deliveries_cons _ _ _ _ _
    calc key.pending ++ deliveries key.path key.interest key.lastSeen (s.observed k (act :: rest))
        = ((s.batch? k act).toList ++ mid.pending) ++
            deliveries mid.path mid.interest mid.lastSeen ((s.after act).observed k rest) := by
          rw [split, ← List.append_assoc, turned.told]
      _ = (s.batch? k act).toList ++ ((s.after act).batches k rest ++ key'.pending) := by
          rw [List.append_assoc, told]
      _ = s.batches k (act :: rest) ++ key'.pending := by
          rw [batches, List.append_assoc]

end WatchService

end MountSpace

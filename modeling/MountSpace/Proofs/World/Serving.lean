/-
What the world does in one go. As time passes, each worker that is due looks at its key and sees what the namespace
answers for the path then, and after that the workers are due for their next looks. Waiting for a key is time that
passes, and a key taken after it. So each of these is a run of moves, in which what begins comes to its end at once
(`Comes`), and what holds in every run of the world holds after it. For a watch service such a run is a run of acts.

- `runUntil_comes`, `awaitKey_comes`, `closeAwaited_comes`: time that passes, and waiting, as moves;
- `Comes.serves`: such moves as acts of a service.
-/
import MountSpace.Proofs.World.Books

namespace MountSpace

open WatchService

namespace World

/-- what begins in a move, a look or a registration, comes to its end in it -/
def Move.Prompt : Move → Prop
  | .answer _ _ _ | .ask _ _ | .enroll _ _ _ | .withdraw _ _ => False
  | _ => True

/-- one world comes to another by moves, and what begins in one of them comes to its end in it -/
def Comes (w next : World) : Prop := ∃ moves : List Move, (∀ m ∈ moves, m.Prompt) ∧ next = w.run moves

namespace Comes

variable {w mid next : World}

theorem refl (w : World) : w.Comes w := ⟨[], nofun, rfl⟩

theorem trans (h : w.Comes mid) (hn : mid.Comes next) : w.Comes next := by
  obtain ⟨before, hbefore, rfl⟩ := h
  obtain ⟨later, hlater, rfl⟩ := hn
  refine ⟨before ++ later, fun m hm => ?_, (run_append w before later).symm⟩
  exact (List.mem_append.1 hm).elim (hbefore m) (hlater m)

theorem one (w : World) {m : Move} (hm : m.Prompt) : w.Comes (w.after m) :=
  ⟨[m], fun x hx => by rw [List.mem_singleton.1 hx]; exact hm, rfl⟩

theorem sound (h : w.Comes next) (hw : w.Sound) : next.Sound := by
  obtain ⟨moves, -, rfl⟩ := h
  exact hw.run moves

end Comes

/-! ## Moves as acts -/

/-- a move that is prompt is an act of a service, or nothing to it -/
theorem beat?_of_prompt {w : World} {n : Nat} {s : WatchService} {m : Move} (hm : m.Prompt) {b : Beat}
    (h : w.beat? n s m = some b) : ∃ act, b = .act act := by
  cases arises h with
  | answer => exact hm.elim
  | ask => exact hm.elim
  | enroll => exact hm.elim
  | withdraw => exact hm.elim
  | _ => exact ⟨_, rfl⟩

/-- **For a service, moves in which all that begins comes to its end are acts.** -/
theorem Comes.serves {w next : World} (h : w.Comes next) {n : Nat} {s : WatchService} (hs : w.services[n]? = some s) :
    ∃ acts, next.services[n]? = some (s.run acts) := by
  obtain ⟨moves, prompt, rfl⟩ := h
  induction moves generalizing w s with
  | nil => exact ⟨[], hs⟩
  | cons m rest ih =>
    have acted : ∃ acts, s.play (w.beat? n s m).toList = s.run acts := by
      cases hb : w.beat? n s m with
      | none => exact ⟨[], rfl⟩
      | some b =>
        obtain ⟨act, rfl⟩ := beat?_of_prompt (prompt m List.mem_cons_self) hb
        exact ⟨[act], rfl⟩
    obtain ⟨first, hfirst⟩ := acted
    obtain ⟨later, hlater⟩ :=
      ih (hfirst ▸ services_after hs m) fun x hx => prompt x (List.mem_cons_of_mem _ hx)
    exact ⟨first ++ later, by rw [WatchService.run_append]; exact hlater⟩

/-! ## Time passes -/

section Workers

variable (w : World)

theorem runWorker_services (services : Array WatchService) (s : WatchService) (k : KeyId) :
    ({ w with services } : World).runWorker s k = w.runWorker s k := by
  rw [runWorker, runWorker]
  simp only [look_services]

/-- the look of one worker leaves the workers of the other keys alone -/
theorem working_runWorker {s : WatchService} {k j : KeyId} (hne : j ≠ k) (hw : s.Working j) :
    (w.runWorker s k).Working j := by
  unfold runWorker
  split
  · exact hw
  · split
    · exact (Leaves.observe hne _).working.2 hw
    · exact (Leaves.retire hne).working.2 hw

theorem modify_congr {services : Array WatchService} {n : Nat} {s : WatchService} {f g : WatchService → WatchService}
    (hs : services[n]? = some s) (h : f s = g s) : services.modify n f = services.modify n g := by
  ext i hi hi'
  · simp
  · simp only [Array.getElem_modify]
    split
    · next hn =>
      subst hn
      rw [(Array.getElem?_eq_some_iff.1 hs).2]
      exact h
    · rfl

theorem modify_modify (services : Array WatchService) (n : Nat) (f g : WatchService → WatchService) :
    (services.modify n f).modify n g = services.modify n fun s => g (f s) := by
  ext i hi hi'
  · simp
  · simp only [Array.getElem_modify]
    split <;> rfl

/-- looks of workers, where a key without a worker is not looked at -/
theorem run_looks (n : Nat) (due : List Worker) (services : Array WatchService) :
    ({ w with services } : World).run (due.map fun worker => .look n worker.key) =
      { w with services := services.modify n fun s =>
          due.foldl (fun s worker => if s.Working worker.key then w.runWorker s worker.key else s) s } := by
  induction due generalizing services with
  | nil =>
    have same : services.modify n (fun s => s) = services := by
      ext i hi hi'
      · simp
      · simp only [Array.getElem_modify]
        split <;> rfl
    simp only [List.map_nil, run_nil, List.foldl_nil, same]
  | cons worker rest ih =>
    have first : ({ w with services } : World).after (.look n worker.key) =
        { w with services := services.modify n fun s =>
            if s.Working worker.key then w.runWorker s worker.key else s } := by
      rw [after, onService]
      simp only [runWorker_services]
    show (({ w with services } : World).after (.look n worker.key)).run _ = _
    rw [first, ih, modify_modify]
    rfl

/-- workers of different keys take their looks one after the other -/
theorem foldl_working {s : WatchService} {due : List Worker} (once : (due.map Worker.key).Nodup)
    (hw : ∀ worker ∈ due, s.Working worker.key) :
    due.foldl (fun s worker => if s.Working worker.key then w.runWorker s worker.key else s) s =
      due.foldl (fun s worker => w.runWorker s worker.key) s := by
  induction due generalizing s with
  | nil => rfl
  | cons worker rest ih =>
    obtain ⟨hfirst, hrest⟩ := List.nodup_cons.1 once
    rw [List.foldl_cons, List.foldl_cons, if_pos (hw worker List.mem_cons_self)]
    refine ih hrest fun other hother => w.working_runWorker (fun heq => hfirst ?_) (hw other (List.mem_cons_of_mem _ hother))
    exact heq ▸ List.mem_map_of_mem hother

variable (stop : Nat)

/-- the looks of one service in a span of time are moves -/
theorem runWorkers_comes {services : Array WatchService} {n : Nat} {s : WatchService} (hs : services[n]? = some s)
    (h : s.Orderly) :
    ({ w with services } : World).Comes { w with services := services.modify n (w.runWorkers stop) } := by
  have perm : (s.dueBy stop).Perm (s.workers.filter fun worker => decide (worker.due ≤ stop)) := List.mergeSort_perm _ _
  have once : ((s.dueBy stop).map Worker.key).Nodup :=
    (perm.map _).nodup_iff.2 (h.once.sublist (List.filter_sublist.map _))
  have working : ∀ worker ∈ s.dueBy stop, s.Working worker.key := fun worker hw =>
    ⟨worker, (List.mem_filter.1 (perm.mem_iff.1 hw)).1, rfl⟩
  refine ⟨(s.dueBy stop).map (fun worker => .look n worker.key) ++ [.pass n stop], fun m hm => ?_, ?_⟩
  · rcases List.mem_append.1 hm with hl | hp
    · obtain ⟨worker, -, rfl⟩ := List.mem_map.1 hl
      trivial
    · rw [List.mem_singleton.1 hp]
      trivial
  · rw [run_append, run_looks]
    show _ = ({ w with services := (services.modify n _).modify n (·.advance stop) } : World)
    rw [modify_modify]
    congr 1
    exact modify_congr hs (by rw [w.foldl_working once working]; rfl)

/-- **Time that passes is moves.** -/
theorem runUntil_comes (hw : w.Sound) : w.Comes (w.runUntil stop) := by
  -- the services have taken their looks up to the one with this number
  have sofar : ∀ i ≤ w.services.size,
      w.Comes { w with services := w.services.mapIdx fun j s => if j < i then w.runWorkers stop s else s } := by
    intro i hi
    induction i with
    | zero =>
      have same : (w.services.mapIdx fun j s => if j < 0 then w.runWorkers stop s else s) = w.services := by
        ext j hj hj'
        · simp
        · simp
      rw [same]
      exact .refl w
    | succ i ih =>
      have hs : (w.services.mapIdx fun j s => if j < i then w.runWorkers stop s else s)[i]? = some w.services[i] := by
        simp [Array.getElem?_eq_getElem hi]
      have next := w.runWorkers_comes stop hs (hw.orderly i _ (Array.getElem?_eq_getElem hi))
      have more : (w.services.mapIdx fun j s => if j < i then w.runWorkers stop s else s).modify i (w.runWorkers stop) =
          w.services.mapIdx fun j s => if j < i + 1 then w.runWorkers stop s else s := by
        ext j hj hj'
        · simp
        · simp only [Array.getElem_modify, Array.getElem_mapIdx]
          grind
      rw [more] at next
      exact (ih (Nat.le_of_lt hi)).trans next
  have all : (w.services.mapIdx fun j s => if j < w.services.size then w.runWorkers stop s else s) =
      w.services.map (w.runWorkers stop) := by
    ext j hj hj'
    · simp
    · simp only [Array.getElem_mapIdx, Array.getElem_map]
      rw [if_pos (by simpa using hj)]
  have looked := sofar w.services.size le_rfl
  rw [all] at looked
  exact looked.trans (.one _ (m := .elapse stop) trivial)

/-- every worker of every service looks -/
theorem tick_comes (hw : w.Sound) : w.Comes w.tick := w.runUntil_comes _ hw

end Workers

/-! ## Waiting for a key -/

section Waiting

variable {w : World} (hw : w.Sound)
include hw

theorem waitForSignal_comes (s : WatchService) : w.Comes (w.waitForSignal s) := by
  unfold waitForSignal
  dsimp only
  split
  · exact w.runUntil_comes _ hw
  · exact (w.runUntil_comes _ hw).trans (.one _ (m := .elapse _) trivial)

omit hw in
/-- a key is taken from a service -/
theorem setService_take {n : Nat} {s : WatchService} (hs : w.services[n]? = some s) :
    w.setService n s.take.2 = w.after (.take n) := by
  rw [setService, after, onService]
  congr 1
  refine Array.ext_getElem? fun i => ?_
  rw [Array.getElem?_setIfInBounds, Array.getElem?_modify]
  split
  · next hn =>
    subst hn
    rw [if_pos (Array.getElem?_eq_some_iff.1 hs).1, hs]
    rfl
  · rfl

/-- **Waiting for a key is moves.** -/
theorem awaitKey_comes (n : Nat) : w.Comes (w.awaitKey n).2 := by
  unfold awaitKey
  split
  · exact .refl w
  · next s hs =>
    have waited : w.Comes (if s.isClosed || s.ready ≠ [] then w else w.waitForSignal s) := by
      split
      · exact .refl w
      · exact waitForSignal_comes hw s
    obtain ⟨acts, hlast⟩ := waited.serves hs
    dsimp only
    rw [hlast, Option.getD_some, setService_take hlast]
    exact waited.trans (.one _ trivial)

/-- **Closing a service that somebody waits for is moves.** -/
theorem closeAwaited_comes (n : Nat) : w.Comes (w.closeAwaited n).2 := by
  unfold closeAwaited
  split
  · exact .refl w
  · next s hs =>
    have taken : w.Comes (w.setService n s.take.2) := by
      rw [setService_take hs]
      exact .one w trivial
    have looked := taken.trans (runUntil_comes _ w.elapsed (taken.sound hw))
    have closed := looked.trans (.one _ (m := .close n) trivial)
    dsimp only
    split
    · exact closed
    · exact closed

end Waiting

end World

end MountSpace

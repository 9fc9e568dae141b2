/-
Times in a run of the world. The clock never goes back, and a move of the world reads it past all that has been read
before. So in every run the times of last change in a namespace are apart and in the past (`Dated`). Between two moments
of a run, a vertex gets another time exactly if an operation of its namespace touches it (`TouchedIn`).

- `run_dated`: the times of every namespace of a run are apart and in the past;
- `aged_run`: which vertices of a namespace have another time after a run.
-/
import MountSpace.Proofs.World.Books

namespace MountSpace

namespace World

/-- the times of the namespaces are past, and no two in one namespace are the same -/
def Dated (w : World) : Prop := ∀ id ns, w.namespace? id = some ns → ns.tree.Stamped w.clock

/-- a move touches a vertex of a namespace -/
def TouchedBy (w : World) (id : NamespaceId) (v : NodeId) : Move → Prop
  | .operate j operation =>
    j = id ∧ ∃ ns, w.namespace? id = some ns ∧ ns.Touches ⟨w.external, w.clock, operation⟩ v
  | _ => False

/-- one of some moves touches a vertex of a namespace -/
def TouchedIn (w : World) (id : NamespaceId) (v : NodeId) : List Move → Prop
  | [] => False
  | m :: rest => w.TouchedBy id v m ∨ (w.after m).TouchedIn id v rest

section Clock

variable (w : World)

theorem clock_change (id : NamespaceId) (readings : Nat)
    (op : External → Time → Namespace → Except FsError Unit × Namespace) :
    w.clock ≤ (w.change id readings op).2.clock := by
  unfold change
  split
  · exact le_rfl
  · exact Namespace.le_add_readings w.clock readings

theorem clock_closeNamespace (id : NamespaceId) : (w.closeNamespace id).clock = w.clock := by
  unfold closeNamespace
  repeat' split
  all_goals rfl

/-- the clock never goes back -/
theorem clock_after (m : Move) : w.clock ≤ (w.after m).clock := by
  cases m with
  | outside host volumes readings => exact Namespace.le_add_readings w.clock readings
  | createNamespace settings => exact Namespace.le_add_readings w.clock 1
  | registerNamespace settings =>
    rw [after, registerNamespace]
    split
    · exact le_rfl
    · exact Namespace.le_add_readings w.clock 1
  | closeNamespace id => exact (w.clock_closeNamespace id).ge
  | unregister name =>
    rw [after, unregister]
    split
    · exact le_rfl
    · exact (clock_closeNamespace _ _).ge
  | operate id operation =>
    cases operation with
    | listDirectory path => exact le_rfl
    | resolve path => exact le_rfl
    | _ => exact w.clock_change id _ _
  | watch id =>
    rw [after]
    split
    · next hm =>
      obtain ⟨-, -, -, -, rfl⟩ := watch_eq_ok hm
      exact le_rfl
    · exact le_rfl
  | register n path interest =>
    obtain ⟨f, hf⟩ := w.register_onService n path interest
    rw [after, hf]
    exact le_rfl
  | ask n request =>
    obtain ⟨f, hf⟩ := w.ask_onService n request
    rw [after, hf]
    exact le_rfl
  | reset n k =>
    obtain ⟨f, hf⟩ := w.reset_onService n k
    rw [after, hf]
    exact le_rfl
  | _ => exact le_rfl

end Clock

section Kept

variable {w : World} {id : NamespaceId} {ns next : Namespace} {m : Move}

/-- an event of a namespace is a turn of it if it is asked for an operation -/
theorem event?_turn {turn : Turn} (h : w.event? id m = some (.turn turn)) :
    ∃ operation, m = .operate id operation ∧ turn = ⟨w.external, w.clock, operation⟩ := by
  cases m with
  | operate j operation =>
    rw [event?] at h
    split at h
    · next hj =>
      cases h
      exact ⟨operation, by rw [hj], rfl⟩
    · cases h
  | closeNamespace j =>
    rw [event?] at h
    split at h <;> cases h
  | unregister name =>
    rw [event?] at h
    split at h <;> cases h
  | _ => cases h

/-- a move that touches a vertex is a turn of its namespace -/
theorem touchedBy_iff (hns : w.namespace? id = some ns) (v : NodeId) :
    w.TouchedBy id v m ↔ ∃ turn, w.event? id m = some (.turn turn) ∧ ns.Touches turn v := by
  constructor
  · intro h
    cases m with
    | operate j operation =>
      obtain ⟨rfl, same, hsame, htouches⟩ := h
      obtain rfl := Option.some.inj (hns.symm.trans hsame)
      exact ⟨_, if_pos rfl, htouches⟩
    | _ => exact h.elim
  · rintro ⟨turn, hturn, htouches⟩
    obtain ⟨operation, rfl, rfl⟩ := event?_turn hturn
    exact ⟨rfl, ns, hns, htouches⟩

variable (hw : w.Sound)
include hw

/-- a move keeps the times of a namespace apart, and changes the times of the vertices that it touches -/
theorem Sound.timely_after (hns : w.namespace? id = some ns) (hnext : (w.after m).namespace? id = some next) :
    ns.tree.Timely w.clock (w.after m).clock (fun v => w.TouchedBy id v m) next.tree := by
  have untouched (none : ∀ turn, w.event? id m ≠ some (.turn turn)) :
      ns.tree.Timely w.clock (w.after m).clock (fun v => w.TouchedBy id v m) ns.tree := by
    refine ⟨fun hs => hs.mono (w.clock_after m), (Tree.Aged.refl ns.tree w.clock).congr fun v _ => ?_⟩
    constructor
    · exact False.elim
    · intro ht
      obtain ⟨turn, hturn, -⟩ := (touchedBy_iff hns v).1 ht
      exact none turn hturn
  have stepped := Option.some.inj ((namespaces_after hw.numbered hns m).symm.trans hnext)
  cases he : w.event? id m with
  | none =>
    rw [he] at stepped
    exact stepped ▸ untouched (by simp [he])
  | some event =>
    rw [he] at stepped
    cases event with
    | close => exact stepped ▸ untouched (by simp [he])
    | turn turn =>
      obtain ⟨operation, rfl, rfl⟩ := event?_turn he
      have timely := Namespace.turn_times (hw.stacked id ns hns) ⟨w.external, w.clock, operation⟩
      have clock : (w.after (.operate id operation)).clock = w.clock + operation.readings := by
        rw [World.after, operate_eq hw.numbered hns]
        rfl
      rw [← stepped, clock]
      refine ⟨timely.stamped, timely.aged.congr fun v _ => ?_⟩
      constructor
      · exact fun ht => ⟨rfl, ns, hns, ht⟩
      · rintro ⟨-, other, hother, ht⟩
        obtain rfl := Option.some.inj (hns.symm.trans hother)
        exact ht

theorem Sound.dated_after (h : w.Dated) (m : Move) : (w.after m).Dated := by
  intro id next hnext
  cases hns : w.namespace? id with
  | some ns => exact (hw.timely_after hns hnext).stamped (h id ns hns)
  | none =>
    obtain ⟨settings, rfl, hclock⟩ := namespace_born hns hnext
    rw [hclock]
    exact Tree.stamped_withRoot "/" w.clock

theorem Sound.dated_run (h : w.Dated) (moves : List Move) : (w.run moves).Dated := by
  induction moves generalizing w with
  | nil => exact h
  | cons m rest ih => exact ih (hw.after m) (hw.dated_after h m)

/-- **In a run, the vertices of a namespace that are touched get another time, and the others keep theirs.** -/
theorem Sound.aged_run (hns : w.namespace? id = some ns) (moves : List Move)
    (hnext : (w.run moves).namespace? id = some next) :
    ns.tree.Aged w.clock (fun v => w.TouchedIn id v moves) next.tree := by
  induction moves generalizing w ns with
  | nil =>
    obtain rfl := Option.some.inj (hns.symm.trans hnext)
    exact .refl ns.tree w.clock
  | cons m rest ih =>
    have hmid := namespaces_after hw.numbered hns m
    exact (hw.timely_after hns hmid).aged.trans (w.clock_after m) (ih (hw.after m) hmid hnext)

end Kept

theorem dated_new (clock : Time) : (World.new clock).Dated := by
  intro id ns h
  rw [namespace?] at h
  split at h
  · cases h
  · cases h

/-- **The times of every namespace of a run are apart and in the past.** -/
theorem run_dated (clock : Time) (moves : List Move) : ((World.new clock).run moves).Dated :=
  (sound_new clock).dated_run (dated_new clock) moves

end World

end MountSpace

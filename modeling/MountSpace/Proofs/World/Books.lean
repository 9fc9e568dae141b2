/-
The books of the world. Every run of the world keeps them in order (`Sound`): namespaces are found under their own
numbers, every service is in order and stands on a namespace that is open as long as the service is, and the keys of a
service are for paths of its namespace, as are those it is asked for. So a worker is refused an answer only once its
service is closed.

What is to be kept of each key need be shown of two steps only: of its registration, and of each way a beat can meet it
(`run_keeps`).

- `service_born`, `namespace_born`: what a move adds;
- `run_sound`: the books are in order in every run;
- `namespace_run`: every namespace has run from a fresh one;
- `run_keeps`: what is kept of one key in all runs.
-/
import MountSpace.Proofs.Watch.Closing
import MountSpace.Proofs.World.Moves

namespace MountSpace

open WatchService

namespace World

/-! ## What a move adds -/

section Births

variable (w : World)

theorem size_services_onService (n : Nat) (f : WatchService → WatchService) :
    (w.onService n f).services.size = w.services.size := Array.size_modify

theorem size_services_closing (id : NamespaceId) :
    (w.closeNamespace id).services.size = w.services.size := by
  unfold closeNamespace
  split
  · rfl
  · split
    · rfl
    · exact Array.size_map

/-- no move but one adds a service -/
theorem size_services_after (m : Move) : (∃ id n, m = .watch id ∧ w.watch id = .ok (n, w.after m)) ∨
    (w.after m).services.size = w.services.size := by
  cases m with
  | watch id =>
    rw [after]
    split
    · next n next hm => exact .inl ⟨id, n, rfl, hm⟩
    · exact .inr rfl
  | registerNamespace settings =>
    refine .inr ?_
    rw [after, registerNamespace]
    split <;> rfl
  | closeNamespace id => exact .inr (w.size_services_closing id)
  | unregister name =>
    refine .inr ?_
    rw [after, unregister]
    split
    · rfl
    · exact size_services_closing _ _
  | operate id operation =>
    refine .inr ?_
    have changed (readings : Nat) (op : External → Time → Namespace → Except FsError Unit × Namespace) :
        (w.change id readings op).2.services.size = w.services.size := by
      rw [change]
      split <;> rfl
    cases operation with
    | listDirectory path => rfl
    | resolve path => rfl
    | _ => exact changed _ _
  | register n path interest =>
    obtain ⟨f, hf⟩ := w.register_onService n path interest
    exact .inr (by rw [after, hf, size_services_onService])
  | ask n request =>
    obtain ⟨f, hf⟩ := w.ask_onService n request
    exact .inr (by rw [after, hf, size_services_onService])
  | reset n k =>
    obtain ⟨f, hf⟩ := w.reset_onService n k
    exact .inr (by rw [after, hf, size_services_onService])
  | outside host volumes readings => exact .inr rfl
  | createNamespace settings => exact .inr rfl
  | elapse moment => exact .inr rfl
  | _ => exact .inr (size_services_onService _ _ _)

/-- a service that was not there before a move has been made in it, on an open namespace -/
theorem service_born {w : World} {m : Move} {n : Nat} {s : WatchService} (h : w.services[n]? = none)
    (hs : (w.after m).services[n]? = some s) : ∃ id ns, m = .watch id ∧ w.namespace? id = some ns ∧
      ns.isOpen = true ∧ s = .new id ns.settings.pollInterval ∧
      w.after m = { w with services := w.services.push (.new id ns.settings.pollInterval) } := by
  have hsize : w.services.size ≤ n := Array.getElem?_eq_none_iff.1 h
  obtain ⟨id, made, rfl, hm⟩ | hsame := w.size_services_after m
  · obtain ⟨ns, hns, hopen, -, heq⟩ := watch_eq_ok hm
    refine ⟨id, ns, rfl, hns, hopen, ?_, heq⟩
    rw [heq, Array.getElem?_push] at hs
    split at hs
    · exact (Option.some.inj hs).symm
    · rw [h] at hs
      cases hs
  · exact absurd (Array.getElem?_eq_some_iff.1 hs).1 (hsame ▸ Nat.not_lt.2 hsize)

theorem size_namespaces_setNamespace (ns : Namespace) :
    (w.setNamespace ns).namespaces.size = w.namespaces.size := Array.size_setIfInBounds

theorem size_namespaces_closeNamespace (id : NamespaceId) :
    (w.closeNamespace id).namespaces.size = w.namespaces.size := by
  unfold closeNamespace
  split
  · rfl
  · split
    · rfl
    · exact size_namespaces_setNamespace _ _

/-- no move but two adds a namespace -/
theorem size_namespaces_after (m : Move) :
    (∃ settings registry, w.after m = { (w.createNamespace settings).2 with registry }) ∨
      (w.after m).namespaces.size = w.namespaces.size := by
  cases m with
  | createNamespace settings => exact .inl ⟨settings, w.registry, rfl⟩
  | registerNamespace settings =>
    rw [after, registerNamespace]
    split
    · exact .inr rfl
    · exact .inl ⟨settings, _, rfl⟩
  | closeNamespace id => exact .inr (w.size_namespaces_closeNamespace id)
  | unregister name =>
    refine .inr ?_
    rw [after, unregister]
    split
    · rfl
    · exact size_namespaces_closeNamespace _ _
  | operate id operation =>
    refine .inr ?_
    have changed (readings : Nat) (op : External → Time → Namespace → Except FsError Unit × Namespace) :
        (w.change id readings op).2.namespaces.size = w.namespaces.size := by
      rw [change]
      split
      · rfl
      · exact size_namespaces_setNamespace _ _
    cases operation with
    | listDirectory path => rfl
    | resolve path => rfl
    | _ => exact changed _ _
  | watch id =>
    refine .inr ?_
    rw [after]
    split
    · next hm =>
      obtain ⟨-, -, -, -, rfl⟩ := watch_eq_ok hm
      rfl
    · rfl
  | register n path interest =>
    obtain ⟨f, hf⟩ := w.register_onService n path interest
    exact .inr (by rw [after, hf]; rfl)
  | ask n request =>
    obtain ⟨f, hf⟩ := w.ask_onService n request
    exact .inr (by rw [after, hf]; rfl)
  | reset n k =>
    obtain ⟨f, hf⟩ := w.reset_onService n k
    exact .inr (by rw [after, hf]; rfl)
  | _ => exact .inr rfl

/-- a namespace that was not there before a move has been made in it -/
theorem namespace_born {w : World} {m : Move} {id : NamespaceId} {ns : Namespace} (h : w.namespace? id = none)
    (hns : (w.after m).namespace? id = some ns) :
    ∃ settings, ns = .new id settings w.clock ∧ (w.after m).clock = w.clock + 1 := by
  obtain ⟨settings, registry, heq⟩ | hsame := w.size_namespaces_after m
  · have made : (w.after m).namespace? id = (w.createNamespace settings).2.namespace? id := by rw [heq]; rfl
    rw [hns, namespace?_createNamespace, h] at made
    split at made
    · exact ⟨settings, Option.some.inj made, by rw [heq]; rfl⟩
    · cases made
  · obtain ⟨hpos, hget⟩ := namespace?_eq_some.1 hns
    have hlt : id - 1 < w.namespaces.size := hsame ▸ (Array.getElem?_eq_some_iff.1 hget).1
    rw [namespace?, if_neg hpos, Array.getElem?_eq_getElem hlt] at h
    cases h

end Births

/-! ## What all runs keep -/

/-- the books of the world are in order: namespaces are found under their own numbers and have the shape that their
operations keep, every service is in order and stands on a namespace that is open as long as the service is, and the
keys of a service, and the registrations under way, are for paths of its namespace -/
structure Sound (w : World) : Prop where
  numbered : w.Numbered
  stacked : ∀ id ns, w.namespace? id = some ns → ns.tree.Stacked
  orderly : ∀ (n : Nat) (s : WatchService), w.services[n]? = some s → s.Orderly
  hosted : ∀ (n : Nat) (s : WatchService), w.services[n]? = some s →
    ∃ ns, w.namespace? s.space = some ns ∧ (s.isClosed = false → ns.isOpen = true)
  owned : ∀ (n : Nat) (s : WatchService), w.services[n]? = some s →
    ∀ k key, s.key? k = some key → key.path.owner = s.space
  asked : ∀ (n : Nat) (s : WatchService), w.services[n]? = some s →
    ∀ request ∈ s.asked, request.path.owner = s.space

theorem sound_new (clock : Time) : (World.new clock).Sound := by
  have none (id : NamespaceId) : (World.new clock).namespace? id = none := by
    rw [namespace?]
    split <;> rfl
  have empty (n : Nat) (s : WatchService) : (World.new clock).services[n]? ≠ some s := by simp [World.new]
  refine ⟨fun id ns h => ?_, fun id ns h => ?_, fun n s hs => absurd hs (empty n s),
    fun n s hs => absurd hs (empty n s), fun n s hs => absurd hs (empty n s), fun n s hs => absurd hs (empty n s)⟩
  · rw [none] at h
    cases h
  · rw [none] at h
    cases h

section Kept

variable {w : World} (hw : w.Sound)
include hw

/-- the look of a worker ends it only once its service is closed -/
theorem Sound.lookAct_eq {n : Nat} {s : WatchService} (hs : w.services[n]? = some s) (hc : s.isClosed = false)
    (path : AbsolutePath) (k : KeyId) :
    ∃ seen, w.look s.space path = .ok seen ∧ w.lookAct path s.space k = .look k seen := by
  obtain ⟨ns, hns, hopen⟩ := hw.hosted n s hs
  have found : ∃ seen, w.look s.space path = .ok seen := by
    rw [look, hns]
    dsimp only
    split
    · exact ⟨_, rfl⟩
    · rw [if_pos (hopen hc)]
      exact ⟨_, rfl⟩
  obtain ⟨seen, hl⟩ := found
  exact ⟨seen, hl, by rw [lookAct, hl]⟩

omit hw in
/-- a namespace that is closed in a move closes its services with it -/
theorem beat?_of_close {m : Move} {n : Nat} {s : WatchService} (hopen : w.IsOpen s.space)
    (h : w.event? s.space m = some .close) : w.beat? n s m = some (.act .close) := by
  cases m with
  | closeNamespace id =>
    rw [event?] at h
    split at h
    · next hid => exact if_pos ⟨hid.symm, hid ▸ hopen⟩
    · cases h
  | unregister name =>
    rw [event?] at h
    split at h
    · next hid => exact if_pos ⟨hid, hopen⟩
    · cases h
  | operate id operation =>
    rw [event?] at h
    split at h
    · cases h
    · cases h
  | _ => cases h

omit hw in
/-- a registration that is a beat has been asked for -/
theorem beat?_register {m : Move} {n : Nat} {s : WatchService} {path : AbsolutePath} {interest : List EventKind}
    {seen : Option Time} {now : Nat} (h : w.beat? n s m = some (.act (.register path interest seen now))) :
    m = .register n path interest ∧ w.registerAct? s.space path interest = some (.register path interest seen now) := by
  cases arises h with
  | register accepted => exact ⟨rfl, accepted⟩

omit hw in
/-- a registration that begins has been asked for -/
theorem beat?_ask {m : Move} {n : Nat} {s : WatchService} {request : WatchRequest}
    (h : w.beat? n s m = some (.ask request)) : ∃ ns, w.namespace? s.space = some ns ∧ request.path.owner = ns.id := by
  cases arises h with
  | ask accepted => exact (askBeat?_eq_some accepted).1

/-- a key is made for a path of its namespace -/
theorem Sound.made_owner {m : Move} {n : Nat} {s t : WatchService} (hs : w.services[n]? = some s) {b : Beat}
    (h : w.beat? n s m = some b) {request : WatchRequest} {seen : Option Time} (made : s.Makes b request seen t) :
    request.path.owner = s.space := by
  cases made with
  | atOnce =>
    obtain ⟨⟨ns, hns, howner⟩, -⟩ := registerAct?_eq_some (beat?_register h).2
    exact howner.trans (hw.numbered s.space ns hns)
  | late asked => exact hw.asked n s hs request asked

/-- what is asked for after a beat is for paths of the namespace -/
theorem Sound.asked_owner {m : Move} {n : Nat} {s : WatchService} (hs : w.services[n]? = some s) {b : Beat}
    (h : w.beat? n s m = some b) {request : WatchRequest} (asked : request ∈ (s.beat b).asked) :
    request.path.owner = s.space := by
  have before := hw.asked n s hs request
  rw [asked_beat] at asked
  cases b with
  | act act => exact before asked
  | answer k seen => exact before asked
  | ask other =>
    rw [Beat.underWay] at asked
    split at asked
    · exact before asked
    · rcases List.mem_cons.1 asked with rfl | hold
      · obtain ⟨ns, hns, howner⟩ := beat?_ask h
        exact howner.trans (hw.numbered s.space ns hns)
      · exact before hold
  | enroll other seen now => exact before (List.mem_of_mem_erase asked)
  | withdraw other => exact before (List.mem_of_mem_erase asked)

theorem Sound.hosted_after {m : Move} {n : Nat} {s : WatchService} {ns : Namespace} (hs : w.services[n]? = some s)
    (hns : w.namespace? s.space = some ns) (hopen : (s.play (w.beat? n s m).toList).isClosed = false) :
    (ns.run (w.event? s.space m).toList).isOpen = true := by
  have before : s.isClosed = false := by
    cases hc : s.isClosed with
    | false => rfl
    | true =>
      rw [(Stands.play s _).isClosed hc] at hopen
      cases hopen
  obtain ⟨same, hsame, hnsopen⟩ := hw.hosted n s hs
  obtain rfl := Option.some.inj (hns.symm.trans hsame)
  cases he : w.event? s.space m with
  | none => exact hnsopen before
  | some event =>
    cases event with
    | turn turn => exact (ns.turn_shell turn).isOpen.trans (hnsopen before)
    | close =>
      rw [beat?_of_close ⟨ns, hns, hnsopen before⟩ he] at hopen
      exact absurd hopen (by simp [play, beat, WatchService.after, isClosed_close])

theorem Sound.after (m : Move) : (w.after m).Sound := by
  have spaces : ∀ id ns, (w.after m).namespace? id = some ns → ns.id = id ∧ ns.tree.Stacked := by
    intro id ns hns
    cases h : w.namespace? id with
    | none =>
      obtain ⟨settings, rfl, -⟩ := namespace_born h hns
      exact ⟨rfl, (Namespace.good_new id settings w.clock).tree⟩
    | some old =>
      have passes := Namespace.run_passes (hw.stacked id old h) (w.event? id m).toList
      rw [namespaces_after hw.numbered h m] at hns
      cases hns
      exact ⟨passes.id.trans (hw.numbered id old h), passes.stacked (hw.stacked id old h)⟩
  refine ⟨fun id ns h => (spaces id ns h).1, fun id ns h => (spaces id ns h).2, fun n s hs => ?_, fun n s hs => ?_,
    fun n s hs k key hk => ?_, fun n s hs request asked => ?_⟩
  · cases h : w.services[n]? with
    | none =>
      obtain ⟨id, ns, -, -, -, rfl, -⟩ := service_born h hs
      exact .new _ _
    | some old =>
      rw [services_after h m] at hs
      cases hs
      exact (hw.orderly n old h).play _
  · cases h : w.services[n]? with
    | none =>
      obtain ⟨id, ns, -, hns, hopen, rfl, heq⟩ := service_born h hs
      exact ⟨ns, by rw [heq]; exact hns, fun _ => hopen⟩
    | some old =>
      rw [services_after h m] at hs
      cases hs
      obtain ⟨ns, hns, -⟩ := hw.hosted n old h
      rw [(Stands.play old _).space]
      exact ⟨_, namespaces_after hw.numbered hns m, hw.hosted_after h hns⟩
  · cases h : w.services[n]? with
    | none =>
      obtain ⟨id, ns, -, -, -, rfl, -⟩ := service_born h hs
      cases hk
    | some old =>
      rw [services_after h m] at hs
      cases hs
      rw [(Stands.play old _).space]
      cases hb : w.beat? n old m with
      | none =>
        rw [hb] at hk
        exact hw.owned n old h k key hk
      | some b =>
        rw [hb] at hk
        cases hold : old.key? k with
        | some before =>
          obtain ⟨next, hnext, hpath, -⟩ := (beat_meets hold b).stays hold
          obtain rfl := Option.some.inj (hk.symm.trans hnext)
          rw [hpath]
          exact hw.owned n old h k before hold
        | none =>
          obtain ⟨request, seen, made, -, rfl⟩ := beat_born hold hk
          exact hw.made_owner h hb made
  · cases h : w.services[n]? with
    | none =>
      obtain ⟨id, ns, -, -, -, rfl, -⟩ := service_born h hs
      cases asked
    | some old =>
      rw [services_after h m] at hs
      cases hs
      rw [(Stands.play old _).space]
      cases hb : w.beat? n old m with
      | none =>
        rw [hb] at asked
        exact hw.asked n old h request asked
      | some b =>
        rw [hb] at asked
        exact hw.asked_owner h hb asked

theorem Sound.run (moves : List Move) : (w.run moves).Sound := by
  induction moves generalizing w with
  | nil => exact hw
  | cons m rest ih => exact ih (hw.after m)

/-- a worker stops looking only once its service is closed -/
theorem Sound.quits {m : Move} {n : Nat} {s : WatchService} (hs : w.services[n]? = some s) {k : KeyId}
    (h : w.beat? n s m = some (.act (.quit k))) : s.isClosed = true := by
  cases arises h with
  | @quit k key e working known refused =>
    cases hc : s.isClosed with
    | true => rfl
    | false =>
      obtain ⟨seen, found, -⟩ := hw.lookAct_eq hs hc key.path k
      rw [refused] at found
      cases found

end Kept

/-- **The books of the world are in order in every run.** -/
theorem run_sound (clock : Time) (moves : List Move) : ((World.new clock).run moves).Sound :=
  (sound_new clock).run moves

/-- a namespace of the world has run from a fresh one -/
theorem namespace_run {clock : Time} {moves : List Move} {id : NamespaceId} {ns : Namespace}
    (h : ((World.new clock).run moves).namespace? id = some ns) :
    ∃ settings now events, ns = (Namespace.new id settings now).run events := by
  induction moves using List.reverseRecOn generalizing ns with
  | nil =>
    rw [namespace?] at h
    split at h <;> cases h
  | append_singleton moves m ih =>
    have last : ((World.new clock).run (moves ++ [m])) = ((World.new clock).run moves).after m := run_append _ moves [m]
    rw [last] at h
    cases hold : ((World.new clock).run moves).namespace? id with
    | none =>
      obtain ⟨settings, rfl, -⟩ := namespace_born hold h
      exact ⟨settings, _, [], rfl⟩
    | some old =>
      obtain ⟨settings, now, events, rfl⟩ := ih hold
      rw [namespaces_after (run_sound clock moves).numbered hold m] at h
      cases h
      exact ⟨settings, now, events ++ _, List.foldl_append.symm⟩

/-- What holds of a key when it is registered, and is kept however it is met, holds of every key in every run; and no
worker stops looking while its service is open. -/
theorem run_keeps {motive : WatchService → KeyId → WatchKey → Prop}
    (born : ∀ (s : WatchService) (path : AbsolutePath) (interest : List EventKind) (seen : Option Time) (now : Nat),
      s.Orderly → motive (s.register path interest seen now).2 s.keys.size (.new path interest seen))
    (kept : ∀ (s t : WatchService) (k : KeyId) (key next : WatchKey) (b : Beat), s.Orderly → s.key? k = some key →
      motive s k key → s.Meets k key b t → (b = .act (.quit k) → s.isClosed = true) → t.key? k = some next →
      motive t k next)
    {w : World} (hw : w.Sound)
    (start : ∀ (n : Nat) (s : WatchService), w.services[n]? = some s → ∀ k key, s.key? k = some key → motive s k key)
    (moves : List Move) {n : Nat} {s : WatchService} (hs : (w.run moves).services[n]? = some s) {k : KeyId}
    {key : WatchKey} (hk : s.key? k = some key) : motive s k key := by
  induction moves generalizing w with
  | nil => exact start n s hs k key hk
  | cons m rest ih =>
    refine ih (hw.after m) (fun n s hs k next hnext => ?_) hs
    cases h : w.services[n]? with
    | none =>
      obtain ⟨id, ns, -, -, -, rfl, -⟩ := service_born h hs
      cases hnext
    | some old =>
      rw [services_after h m] at hs
      cases hs
      cases hb : w.beat? n old m with
      | none =>
        rw [hb] at hnext
        exact start n old h k next hnext
      | some b =>
        rw [hb] at hnext
        cases hold : old.key? k with
        | some before =>
          have quits : b = .act (.quit k) → old.isClosed = true := by
            rintro rfl
            exact hw.quits h hb
          exact kept old _ k before next b (hw.orderly n old h) hold (start n old h k before hold)
            (beat_meets hold b) quits hnext
        | none =>
          obtain ⟨request, seen, made, rfl, rfl⟩ := beat_born hold hnext
          obtain ⟨asked, now, heq⟩ := made.registers
          show motive (old.beat b) _ _
          rw [heq]
          exact born _ request.path request.interest seen now ((hw.orderly n old h).asking asked)

end World

end MountSpace

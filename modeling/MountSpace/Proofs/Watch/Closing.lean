/-
What closing does to the keys of a service. Closing gives up the keys of the live table and no others. A key is not in
the table while it is signalled: it left when the signal came and is put back by the reset, and a closed service resets
nothing. So the keys that are signalled when the service closes, still queued or taken and not reset, stay valid for
good unless their holders cancel them; all others are given up.

- `close_spares_signalled`: which keys are valid after a service was closed, by its owner or with its namespace;
- `told_outlives_close`: a key that is queued when the service closes is still valid afterwards.
-/
import MountSpace.Proofs.Watch.Runs
import MountSpace.World.Registry

namespace MountSpace

namespace WatchService

variable {s : WatchService} {j : KeyId} {key : WatchKey}

/-- whether a key is valid after the closing is settled by the live table -/
theorem key?_close_of_orderly (h : s.Orderly) (hopen : s.isClosed = false) (hkey : s.key? j = some key) :
    s.close.key? j = some { key with valid := key.valid && key.signalled } := by
  have live := h.standing hopen j key hkey
  rw [key?_close, hkey]
  by_cases hj : j ∈ s.live
  · have given : (key.valid && key.signalled) = false := by rw [(live.1 hj).2, Bool.and_false]
    rw [if_pos ⟨hopen, hj⟩, given]
    rfl
  · rw [if_neg (fun hn => hj hn.2)]
    have same : (key.valid && key.signalled) = key.valid := by
      cases hs : key.signalled with
      | true => exact Bool.and_true _
      | false =>
        have hv : key.valid = false := Bool.eq_false_iff.2 fun hv => hj (live.2 ⟨hv, hs⟩)
        rw [hv]
        rfl
    rw [same]

theorem isClosed_close (s : WatchService) : s.close.isClosed = true := by
  cases hc : s.isClosed with
  | true =>
    rw [close_closed hc]
    exact hc
  | false =>
    obtain ⟨keys, -, heq⟩ := close_eq hc
    rw [heq]

/-- once a service is closed, a key stays as valid as it is, as long as its holder does not cancel it -/
theorem after_closed_other (hc : s.isClosed = true) (hkey : s.key? j = some key) {act : Act} (hact : act ≠ .cancel j) :
    (s.after act).isClosed = true ∧ ∃ next, (s.after act).key? j = some next ∧ next.valid = key.valid := by
  have still : s.after act = s →
      (s.after act).isClosed = true ∧ ∃ next, (s.after act).key? j = some next ∧ next.valid = key.valid := by
    intro heq
    rw [heq]
    exact ⟨hc, key, hkey, rfl⟩
  cases act with
  | register path interest seen now => exact still (if_pos hc)
  | look k seen =>
    simp only [after]
    split
    · cases hk : s.key? k with
      | none =>
        rw [observe, hk]
        exact ⟨hc, key, hkey, rfl⟩
      | some other =>
        rw [observe_stale hk (.inr hc)]
        exact ⟨hc, key, hkey, rfl⟩
    · exact ⟨hc, key, hkey, rfl⟩
  | quit k => exact ⟨hc, key, hkey, rfl⟩
  | pass stop => exact ⟨hc, key, hkey, rfl⟩
  | poll => exact still (by simp [after, poll, hc])
  | take => exact still (by simp [after, take, hc])
  | read k =>
    obtain hr | hr := takeEvents_snd s k
    · exact still hr
    · rw [after, hr]
      refine ⟨hc, ?_⟩
      rw [key?_update, hkey]
      split
      · exact ⟨key.takeEvents.2, rfl, rfl⟩
      · exact ⟨key, rfl, rfl⟩
  | reset k now =>
    obtain hr | ⟨-, -, -, hopen, -⟩ := reset_cases s k now
    · exact still (congrArg Prod.snd hr)
    · exact absurd hopen (by simp [hc])
  | cancel k =>
    have hk : j ≠ k := fun heq => hact (congrArg Act.cancel heq.symm)
    obtain hx | ⟨-, -, -, hx⟩ := cancel_cases s k
    · exact still hx
    · rw [after, hx]
      refine ⟨hc, key, ?_, rfl⟩
      show (s.update k _).key? j = _
      rw [key?_update_ne _ _ _ _ hk, hkey]
  | close => exact still (close_closed hc)

theorem after_closed_cancel (hc : s.isClosed = true) (hkey : s.key? j = some key) :
    (s.after (.cancel j)).isClosed = true ∧ ∃ next, (s.after (.cancel j)).key? j = some next ∧ next.valid = false := by
  simp only [after, cancel, hkey]
  cases hv : key.valid with
  | false => exact ⟨by simpa using hc, key, by simpa using hkey, hv⟩
  | true =>
    refine ⟨by simpa using hc, key.invalidate, ?_, rfl⟩
    show (s.update j _).key? j = _
    rw [key?_update_self, hkey]
    rfl

/-- once a service is closed, a key is given up by its holder only -/
theorem after_closed (hc : s.isClosed = true) (hkey : s.key? j = some key) (act : Act) :
    (s.after act).isClosed = true ∧ ∃ next, (s.after act).key? j = some next ∧
      (next.valid = true ↔ key.valid = true ∧ act ≠ .cancel j) := by
  by_cases hact : act = .cancel j
  · subst hact
    obtain ⟨hclosed, next, hnext, hvalid⟩ := after_closed_cancel hc hkey
    exact ⟨hclosed, next, hnext, by simp [hvalid]⟩
  · obtain ⟨hclosed, next, hnext, hvalid⟩ := after_closed_other hc hkey hact
    exact ⟨hclosed, next, hnext, by simp [hvalid, hact]⟩

theorem run_closed (hc : s.isClosed = true) (hkey : s.key? j = some key) (acts : List Act) :
    ∃ last, (s.run acts).key? j = some last ∧ (last.valid = true ↔ key.valid = true ∧ .cancel j ∉ acts) := by
  induction acts generalizing s key with
  | nil => exact ⟨key, hkey, by simp⟩
  | cons act rest ih =>
    obtain ⟨hclosed, next, hnext, hvalid⟩ := after_closed hc hkey act
    obtain ⟨last, hlast, hrest⟩ := ih hclosed hnext
    refine ⟨last, hlast, ?_⟩
    rw [hrest, hvalid, List.mem_cons, not_or, and_assoc, ne_comm]

end WatchService

/-- closing an open namespace closes the services on it -/
theorem World.services_closeNamespace {w : World} {n : Nat} {s : WatchService} {ns : Namespace}
    (hs : w.services[n]? = some s) (hns : w.namespace? s.space = some ns) (hopen : ns.isOpen = true) :
    (w.closeNamespace s.space).services[n]? = some s.close := by
  rw [closeNamespace, hns]
  simp [hopen, setNamespace, hs]

namespace WatchService

/-- **What closing does to the keys.** After a service was closed, whatever happens then, a key is valid exactly if it
was valid and signalled when the service closed and its holder has not cancelled it since. Closing the namespace closes
the service in the same way. -/
theorem close_spares_signalled (space : NamespaceId) (interval : Nat) (before later : List Act) {s : WatchService}
    (hs : s = (new space interval).run before) (hopen : s.isClosed = false) :
    (∀ j key, s.key? j = some key → ∃ last, (s.close.run later).key? j = some last ∧
      (last.valid = true ↔ key.valid = true ∧ key.signalled = true ∧ .cancel j ∉ later)) ∧
    ∀ (w : World) (n : Nat) (ns : Namespace), w.services[n]? = some s → w.namespace? s.space = some ns →
      ns.isOpen = true → (w.closeNamespace s.space).services[n]? = some s.close := by
  have horderly : s.Orderly := hs ▸ run_orderly space interval before
  refine ⟨fun j key hkey => ?_, fun w n ns hn hns hns_open => World.services_closeNamespace hn hns hns_open⟩
  obtain ⟨last, hlast, hvalid⟩ := run_closed (isClosed_close s) (key?_close_of_orderly horderly hopen hkey) later
  refine ⟨last, hlast, ?_⟩
  rw [hvalid, Bool.and_eq_true, and_assoc]

/-- two keys on an absent path that appears: one is taken and read, the other is left in the queue -/
def bothTold : List Act :=
  [.register ⟨1, ["a"]⟩ [.created] none 0, .register ⟨1, ["a"]⟩ [.created] none 0, .look 0 (some 5), .look 1 (some 5),
    .poll, .read 0]

theorem bothTold_valid : ∃ last, (((new 1 100).run bothTold).close.run [.cancel 0]).key? 1 = some last ∧
    last.valid = true := by
  obtain ⟨last, hlast, hvalid⟩ := (close_spares_signalled 1 100 bothTold [.cancel 0] rfl (by decide)).1 1
    ⟨⟨1, ["a"]⟩, [.created], some 5, [⟨.created, ⟨1, ["a"]⟩, 1⟩], true, true⟩ (by decide)
  exact ⟨last, hlast, hvalid.2 ⟨rfl, rfl, by decide⟩⟩

/-- Neither the key that was taken nor the one in the queue is given up when the service closes. -/
theorem told_outlives_close : ¬∀ (k : KeyId) (key : WatchKey),
    ((new 1 100).run (bothTold ++ [.close])).key? k = some key → key.valid = false := by
  intro given
  have queued := given 1 ⟨⟨1, ["a"]⟩, [.created], some 5, [⟨.created, ⟨1, ["a"]⟩, 1⟩], true, true⟩ (by decide)
  cases queued

end WatchService

end MountSpace

/-
Mounting what the settings list, as a run. The directories are made and mounted one after the other, each time with the
answers of all filesystems as they are then, so what happens to the namespace is a run of turns, and what holds of runs
holds of it, also where one of the mounts fails.

Main result: `mountConfigured_run`.
-/
import MountSpace.Proofs.Space.Runs
import MountSpace.World.Edit

namespace MountSpace

/-- a path read from a text has valid names -/
theorem AbsolutePath.checkNames_of_parse {owner : NamespaceId} {text : String} {path : AbsolutePath}
    (h : AbsolutePath.parse owner text = .ok path) : checkNames path.names = .ok () := by
  unfold AbsolutePath.parse at h
  split at h
  · cases h
    rfl
  · next rest _ _ =>
    rw [AbsolutePath.ofNames] at h
    cases hc : checkNames (splitNames rest) with
    | error e => rw [hc] at h; cases h
    | ok _ =>
      rw [hc] at h
      cases h
      exact hc
  · cases h

namespace Namespace

/-- a namespace keeps its number -/
theorem Passes.id {ns last : Namespace} {deeds : List Deed} (hp : Passes ns deeds last) : last.id = ns.id := by
  induction hp with
  | done => rfl
  | more _ edit _ ih => cases edit <;> exact ih

/-- a request is for the path it was made for -/
theorem MountRequest.at_of_new {fs : FsRef} {source : FsPath} {path : AbsolutePath} {request : MountRequest}
    (h : MountRequest.new fs source path = .ok request) : request.at_ = path := by
  unfold MountRequest.new at h
  split at h
  · cases h
  · split at h
    · cases h
    · cases h
      rfl

theorem run_append (ns : Namespace) (before later : List Event) :
    ns.run (before ++ later) = (ns.run before).run later :=
  List.foldl_append

end Namespace

namespace World

/-- the namespace has been through some events and is in the world as they have left it -/
def Ran (ns : Namespace) (w : World) : Prop := ∃ events, w.namespace? ns.id = some (ns.run events)

theorem namespace?_setNamespace {w : World} {ns old : Namespace} (h : w.namespace? ns.id = some old) :
    (w.setNamespace ns).namespace? ns.id = some ns := by
  rw [namespace?] at h ⊢
  split at h
  · cases h
  · next hid =>
    obtain ⟨hlt, -⟩ := Array.getElem?_eq_some_iff.1 h
    rw [if_neg hid, setNamespace, Array.getElem?_setIfInBounds_self_of_lt hlt]

section Runs

variable {ns : Namespace} (ht : ns.tree.Stacked) {w : World}
include ht

/-- a change that is a turn of the namespace is one event more -/
theorem Ran.change (h : Ran ns w) (readings : Nat) (operation : Operation)
    {op : External → Time → Namespace → Except FsError Unit × Namespace}
    (hop : ∀ ext now mid, (mid.turn ⟨ext, now, operation⟩).2 = (op ext now mid).2) :
    Ran ns (w.change ns.id readings op).2 := by
  obtain ⟨events, hns⟩ := h
  have hid : (ns.run (events ++ [.turn ⟨w.external, w.clock, operation⟩])).id = ns.id :=
    (Namespace.run_passes ht _).id
  have hnext : (op w.external w.clock (ns.run events)).2 =
      ns.run (events ++ [.turn ⟨w.external, w.clock, operation⟩]) := by
    rw [Namespace.run_append]
    exact (hop w.external w.clock (ns.run events)).symm
  refine ⟨events ++ [.turn ⟨w.external, w.clock, operation⟩], ?_⟩
  rw [World.change, hns]
  simp only [hnext]
  rw [← hid] at hns ⊢
  exact namespace?_setNamespace hns

theorem Ran.mountSetting (h : Ran ns w) (setting : MountSetting) : Ran ns (w.mountSetting ns.id setting).2 := by
  rw [World.mountSetting]
  cases hp : AbsolutePath.parse ns.id setting.at_ with
  | error e => exact h
  | ok path =>
    have hvalid := AbsolutePath.checkNames_of_parse hp
    have hmade : Ran ns (w.createDirectories ns.id path).2 :=
      Ran.change ht h (readingsAlong path) (.createDirectories ⟨path, hvalid⟩) fun _ _ _ => rfl
    simp only
    cases hc : w.createDirectories ns.id path with
    | mk answer made =>
      rw [hc] at hmade
      cases answer with
      | error e => exact hmade
      | ok _ =>
        simp only
        cases hr : Namespace.MountRequest.new (made.openDirectory setting.source).1 .rootPath path with
        | error e => exact hmade
        | ok request =>
          have hrequest : request.at_ = path := Namespace.MountRequest.at_of_new hr
          rw [← hrequest] at hvalid
          -- a volume more leaves the namespaces as they are
          have hopened : Ran ns (made.openDirectory setting.source).2 := hmade
          have hmounted : Ran ns ((made.openDirectory setting.source).2.mount ns.id request).2 :=
            Ran.change ht hopened 1 (.mount request.source ⟨request.at_, hvalid⟩) fun _ _ _ => rfl
          exact hmounted

theorem Ran.mountAll (settings : List MountSetting) (h : Ran ns w) :
    Ran ns (World.mountAll ns.id settings w).2 := by
  induction settings generalizing w with
  | nil => exact h
  | cons setting rest ih =>
    have hone := Ran.mountSetting ht h setting
    rw [World.mountAll]
    cases hm : w.mountSetting ns.id setting with
    | mk answer made =>
      rw [hm] at hone
      cases answer with
      | error e => exact hone
      | ok _ => exact ih hone

/-- **What mounting the configured directories does to a namespace is a run of it.** -/
theorem mountConfigured_run (h : w.namespace? ns.id = some ns) : Ran ns (w.mountConfigured ns.id).2 := by
  rw [mountConfigured, h]
  exact Ran.mountAll ht ns.settings.mounts ⟨[], h⟩

end Runs

end World

end MountSpace

/-
A mount taken away again leaves nothing behind. Between the two, anything may be asked of the namespace, as long as the
paths are neither at, below nor above the mount point: directories and other mounts come and go beside it, and it may
have been mounted over other mounts. Afterwards the namespace is the one that would have come of the same turns without
the mount. The vertex that was covered is back in its slot among its siblings, with its children. All that differs is
one number, that of the mount, which is left out (`Skipping`), and what was read from the clock (`Clocks`).

What the mounted filesystems answer is part of a turn, so it is the same with the mount and without it. The namespace is
not closed in between, or it would refuse the unmounting like everything else.

Main result: `bracket_invisible`.
-/
import MountSpace.Proofs.Space.Refusals
import MountSpace.Proofs.Space.Tandem

namespace MountSpace

/-- times that are the same, or the same reading of the same turn: `now` and the moments after it in one run, and the
second component and the moments after it in the other -/
inductive Clocks (turns : List (Turn × Time)) : Time → Time → Prop where
  | same (t : Time) : Clocks turns t t
  | reading {turn : Turn} {now : Time} (h : (turn, now) ∈ turns) (k : Nat) : Clocks turns (turn.now + k) (now + k)

namespace Namespace

/-- the second namespace is the first one, but that the number `n` has been left out and that times may be other ones -/
structure Skipping (n : NodeId) (R : Time → Time → Prop) (ns last : Namespace) : Prop where
  id : last.id = ns.id
  settings : last.settings = ns.settings
  isOpen : last.isOpen = ns.isOpen
  tree : ns.tree.Skipping n R last.tree
  /-- mount points and sources are the same, in the same order -/
  mounts : last.mounts = ns.mounts.map (MountRecord.shift n)

/-! ## The mount is made -/

/-- what a mounting that succeeds has found and done -/
theorem mount_eq_ok {ns mid : Namespace} {ext : External} {now : Time} {source : ExternalPath} {at_ : AbsolutePath}
    (h : ns.mount ext now ⟨source, at_⟩ = (.ok (), mid)) : ns.isOpen = true ∧ at_.owner = ns.id ∧ at_.names ≠ [] ∧
      ∃ e name id u, ns.tree.Finds ns.tree.root at_.names e ∧ ns.tree.name? e = some name ∧
        ns.tree.replaceWith e (.mount ⟨name, ⟨ns.tree.nextId, at_, source⟩, .at now, e⟩) = some (id, u) ∧
        mid = { ns with tree := u, mounts := ns.mounts ++ [⟨ns.tree.nextId, at_, source⟩] } := by
  have covered : ∀ e name, ns.cover now ⟨source, at_⟩ e name = (.ok (), mid) → ∃ id u,
      ns.tree.replaceWith e (.mount ⟨name, ⟨ns.tree.nextId, at_, source⟩, .at now, e⟩) = some (id, u) ∧
        mid = { ns with tree := u, mounts := ns.mounts ++ [⟨ns.tree.nextId, at_, source⟩] } := by
    intro e name hcover
    rw [cover] at hcover
    simp only at hcover
    split at hcover
    · next id u hu =>
      cases hcover
      exact ⟨id, u, hu, rfl⟩
    · cases hcover
  rw [mount] at h
  cases hc : ns.check at_ with
  | error refused =>
    rw [hc] at h
    cases h
  | ok _ =>
    rw [hc] at h
    simp only at h
    obtain ⟨hopen, howner⟩ := check_eq_ok.1 hc
    split at h
    · cases h
    next hroot =>
    have hnames : at_.names ≠ [] := by simpa [AbsolutePath.isRoot] using hroot
    refine ⟨hopen, howner, hnames, ?_⟩
    split at h
    · cases h
    · split at h
      · cases h
      · cases hr : ns.tree.resolve ext at_ with
        | error refused =>
          rw [hr] at h
          cases h
        | ok place =>
          rw [hr] at h
          cases place with
          | real name where_ => cases h
          | directory e d =>
            obtain ⟨hfinds, hnode⟩ := Tree.finds_directory hr
            obtain ⟨id, u, hu, hmid⟩ := covered e d.name h
            exact ⟨e, d.name, id, u, hfinds, by rw [Tree.name?, hnode]; rfl, hu, hmid⟩
          | mount e m =>
            obtain ⟨hfinds, hnode⟩ := Tree.finds_mount hr
            obtain ⟨id, u, hu, hmid⟩ := covered e m.name h
            exact ⟨e, m.name, id, u, hfinds, by rw [Tree.name?, hnode]; rfl, hu, hmid⟩

/-- **The namespace with the mount stands beside the one from before.** -/
theorem bracketed_mount {ns mid : Namespace} (stacked : ns.tree.Stacked) (plain : ns.tree.Plain)
    (booked : Booked ns.tree ns.mounts) {R : Time → Time → Prop} (hR : ∀ t, R t t) {ext : External} {now : Time}
    {source : ExternalPath} {at_ : AbsolutePath} (h : ns.mount ext now ⟨source, at_⟩ = (.ok (), mid)) :
    ∃ e m, m.shadowed = e ∧ m.record.serial = ns.tree.nextId ∧ Bracketed ns.tree.nextId e m R at_ ns mid := by
  obtain ⟨hopen, howner, hnames, e, name, id, u, hfinds, hname, hu, rfl⟩ := mount_eq_ok h
  have serial : ∀ k m, ns.tree.node? k = some (.mount m) → m.record.serial = k := fun k m hm =>
    (booked.listed k m.record m.shadowed (Tree.actAt_eq_some.2 ⟨m, hm, rfl, rfl⟩)).2
  have old : ∀ r ∈ ns.mounts, r.serial < ns.tree.nextId := by
    intro r hr
    obtain ⟨s, hs⟩ := booked.found r hr
    exact lt_nextId_of_actAt hs
  refine ⟨e, ⟨name, ⟨ns.tree.nextId, at_, source⟩, .at now, e⟩, rfl, rfl, rfl, rfl, ⟨hopen, hopen⟩,
    Tree.bracketed_replace stacked plain serial hR rfl hname hu, ?_, howner, hnames, hfinds⟩
  show (ns.mounts ++ [_]).filter _ = _
  have kept : ns.mounts.filter (·.serial ≠ ns.tree.nextId) = ns.mounts :=
    List.filter_eq_self.2 fun r hr => decide_eq_true (Nat.ne_of_lt (old r hr))
  have same : ns.mounts.map (MountRecord.shift ns.tree.nextId) = ns.mounts := by
    refine (List.map_congr_left fun r hr => ?_).trans (List.map_id _)
    rw [MountRecord.shift, shift_of_lt (old r hr)]
    rfl
  rw [List.filter_append, kept, same]
  simp

/-! ## The mount is taken away -/

/-- **Without the mount, the namespace is the other one**, but for the number of the mount. -/
theorem Bracketed.unmount_point {n e : NodeId} {m : MountNode} {R : Time → Time → Prop} {at_ : AbsolutePath}
    {ns nb : Namespace} (h : Bracketed n e m R at_ ns nb) (fit : Fit ns nb) (hm : m.shadowed = e)
    (serial : m.record.serial = n) (ext : External) :
    ∃ last, nb.unmount ext at_ = (.ok (), last) ∧ ns.Skipping n R last := by
  have past : ∀ before k, before <+: at_.names → before ≠ at_.names → ns.tree.Finds ns.tree.root before k → k ≠ e := by
    -- what stands on the way is found by fewer names
    rintro before k hb hne hk rfl
    have hfold := congrArg List.length (Tree.finds_unique fit.stacked.toLinked hk h.point)
    rw [length_foldNames, length_foldNames] at hfold
    exact hne (hb.eq_of_length hfold)
  have hfinds : nb.tree.Finds nb.tree.root at_.names n := by
    have hf := h.tree.finds h.point past
    rwa [detour_self, ← h.tree.root] at hf
  have hplace : nb.place ext at_ = .ok (.mount n m) := by
    have hcheck : nb.check at_ = .ok () := check_eq_ok.2 ⟨h.opened.2, h.owner.trans h.id.symm⟩
    rw [place, hcheck]
    exact hfinds.resolve h.tree.cover ext
  obtain ⟨tree, hu, skipping⟩ :=
    h.tree.unmount_cover fit.stacked.toSound fit.other.toSound hm (h.attached fit)
  have hmounts := h.mounts
  rw [← serial] at hmounts
  refine ⟨{ nb with tree, mounts := nb.mounts.filter (·.serial ≠ m.record.serial) }, ?_, h.id, h.settings, ?_,
    skipping, ?_⟩
  · rw [Namespace.unmount, hplace]
    simp only [hu]
  · exact h.opened.2.trans h.opened.1.symm
  · rw [← serial]
    exact hmounts

/-! ## Runs -/

theorem plain_edit {ns next : Namespace} {deed : Option Deed} (h : ns.tree.Plain) (edit : Edit ns deed next) :
    next.tree.Plain := by
  intro k d hd
  cases edit with
  | grow edit =>
    rw [edit.face] at hd
    split at hd
    · cases hd
      rfl
    · exact h k d hd
  | prune edit =>
    rw [edit.face] at hd
    split at hd
    · cases hd
    · exact h k d hd
  | rename edit =>
    rw [edit.face] at hd
    split at hd
    · obtain ⟨x, hx, heq⟩ := Option.map_eq_some_iff.1 hd
      cases x with
      | directory d' =>
        cases heq
        exact h k d' hx
      | mount m => cases heq
    · exact h k d hd
  | mount edit =>
    rw [edit.face] at hd
    split at hd
    · cases hd
    · exact h k d hd
  | unmount edit =>
    rw [edit.face] at hd
    split at hd
    · cases hd
    · exact h k d hd
  | close => exact h k d hd

theorem plain_new (id : NamespaceId) (settings : Settings) (now : Time) : (new id settings now).tree.Plain := by
  intro k d hd
  cases k with
  | zero =>
    cases hd
    rfl
  | succ k => cases hd

/-- **A mount and its unmounting leave nothing behind.** Take any namespace that a run has led to, a mounting that
succeeds in it, and turns whose paths are neither at, below nor above the mount point. With the mount made before the
turns, the unmounting after them succeeds, and the namespace is then the one that the turns alone lead to, but that the
number of the mount is left out, and that other times may have been read from the clock. -/
theorem bracket_invisible (id : NamespaceId) (settings : Settings) (start : Time) (before : List Event)
    (ext later : External) (now : Time) (source : ExternalPath) (at_ : AbsolutePath) {ns mid : Namespace}
    (hns : ns = (new id settings start).run before) (mounted : ns.mount ext now ⟨source, at_⟩ = (.ok (), mid))
    (turns : List (Turn × Time)) (beside : ∀ x ∈ turns, ∀ path ∈ x.1.operation.paths, path.Beside at_) :
    ∃ last, (mid.run (turns.map fun x => .turn (x.1.readAt x.2))).unmount later at_ = (.ok (), last) ∧
      (ns.run (turns.map fun x => .turn x.1)).Skipping ns.tree.nextId (Clocks turns) last := by
  have hfresh := (good_new id settings start).tree
  have hpasses : Passes (new id settings start) _ ns := hns ▸ run_passes hfresh before
  obtain ⟨apart, plain, booked⟩ := Passes.keeps
    (motive := fun ns _ => ns.tree.Apart ∧ ns.tree.Plain ∧ Booked ns.tree ns.mounts) hfresh
    ⟨apart_new id settings start, plain_new id settings start, booked_new id settings start⟩
    (fun _ _ _ _ hmid _ edit h => ⟨apart_edit hmid h.1 edit, plain_edit h.2.1 edit, booked_edit h.2.2 edit⟩) hpasses
  have stacked := hpasses.stacked hfresh
  have stacked' : mid.tree.Stacked := by
    have hmid := (mount_does stacked ext now source at_).passes.stacked stacked
    rwa [mounted] at hmid
  obtain ⟨e, m, hm, serial, bracketed⟩ := bracketed_mount stacked plain booked (R := Clocks turns) .same mounted
  obtain ⟨aside, fit⟩ := bracketed.run ⟨stacked, apart, stacked'⟩ turns beside fun _ hx k => .reading hx k
  exact aside.unmount_point fit hm serial later

/-- a directory made, renamed and covered beside the mount, a directory above all of that taken out in vain, and the
clock read later than without the mount -/
def aside : List (Turn × Time) := [
  (⟨emptyVolumes, 4, .createDirectories (pathOf ["b", "c"] (by decide))⟩, 5),
  (⟨emptyVolumes, 8, .rename (pathOf ["B", "C"] (by decide)) (pathOf ["b", "d"] (by decide))⟩, 9),
  (⟨emptyVolumes, 9, .mount ⟨.volume 0, .rootPath⟩ (pathOf ["b", "d"] (by decide))⟩, 10),
  (⟨emptyVolumes, 10, .delete (pathOf ["b"] (by decide))⟩, 11)]

/-- a second mount over one that is there already, taken away after that -/
theorem shelved_bracket : ∃ mid,
    ((new 1 {} 0).run shelved).mount emptyVolumes 4 ⟨⟨.volume 1, .rootPath⟩, ⟨1, ["M"]⟩⟩ = (.ok (), mid) ∧
    (∀ x ∈ aside, ∀ path ∈ x.1.operation.paths, path.Beside ⟨1, ["M"]⟩) ∧
    ∃ last, (mid.run (aside.map fun x => .turn (x.1.readAt x.2))).unmount emptyVolumes ⟨1, ["M"]⟩ = (.ok (), last) ∧
      (((new 1 {} 0).run shelved).run (aside.map fun x => .turn x.1)).Skipping 3 (Clocks aside) last := by
  obtain ⟨mid, hmid⟩ : ∃ mid, ((new 1 {} 0).run shelved).mount emptyVolumes 4 ⟨⟨.volume 1, .rootPath⟩, ⟨1, ["M"]⟩⟩ =
      (.ok (), mid) := ⟨_, by cbv⟩
  have hbeside : ∀ x ∈ aside, ∀ path ∈ x.1.operation.paths, path.Beside ⟨1, ["M"]⟩ := by decide
  have hnext : ((new 1 {} 0).run shelved).tree.nextId = 3 := by cbv
  refine ⟨mid, hmid, hbeside, ?_⟩
  rw [← hnext]
  exact bracket_invisible 1 {} 0 shelved emptyVolumes emptyVolumes 4 _ _ rfl hmid aside hbeside

end Namespace

end MountSpace

/-
Where the listed mounts are. A record keeps the mount point as it was given, and nothing changes it afterwards. The mount
stands there when it is made, and other mounts over it or above it, in whatever order they come and go, do not move it. A
rename of a directory above it does: the way down to the mount changes, and the record does not. So a mount is at its
mount point carried along by the renames that came after it (`Deed.carry`), and the list names that place only if they
bring the mount point back to itself, as they do if none of them gives another name to a directory on it.

Main result: `run_whereabouts`.
-/
import Mathlib
import MountSpace.Proofs.Space.Names
import MountSpace.Proofs.Space.Ledger
import MountSpace.Filesystem.Memory

namespace MountSpace

/-- what a deed does to the way of what it finds in place: a rename moves what is at or below its source -/
def Deed.carry (names : List String) : Deed → List String
  | mounted _ => names
  | renamed source target => moved source.names target.names names

/-- renames that leave the names of what is on the way as they are, apart from case, carry nothing off -/
theorem foldNames_foldl_carry {names : List String} {later : List Deed}
    (h : ∀ source target, .renamed source target ∈ later → foldNames source.names <+: foldNames names →
      foldNames source.names = foldNames target.names) :
    foldNames (later.foldl Deed.carry names) = foldNames names := by
  have hstays : ∀ others, foldNames others = foldNames names →
      foldNames (later.foldl Deed.carry others) = foldNames names := by
    induction later with
    | nil => exact fun _ hf => hf
    | cons deed rest ih =>
      intro others hf
      refine ih (fun source target hm => h source target (List.mem_cons_of_mem _ hm)) _ ?_
      cases deed with
      | mounted record => exact hf
      | renamed source target =>
        rw [Deed.carry, moved]
        split
        · next hp =>
          have hsame := h source target List.mem_cons_self (hf ▸ hp)
          obtain ⟨below, hbelow⟩ := hp
          have hdrop : foldNames (others.drop source.names.length) = below := by
            rw [foldNames, List.map_drop, ← length_foldNames source.names]
            show List.drop _ (foldNames others) = below
            rw [← hbelow, List.drop_left]
          rw [foldNames_append, ← hsame, hdrop, hbelow, hf]
        · exact hf
  exact hstays names rfl

namespace Namespace

/-- the record was made by one of the deeds, and its mount stands where the deeds since then have carried it -/
def Carried (t : Tree) (deeds : List Deed) (r : MountRecord) : Prop :=
  ∃ before later names, deeds = before ++ .mounted r :: later ∧ t.Standing r.serial names ∧
    foldNames names = foldNames (later.foldl Deed.carry r.point.names)

/-- a change that does not move the mount, whatever else it does -/
theorem Carried.stay {t u : Tree} {deeds : List Deed} {r : MountRecord} (h : Carried t deeds r) {deed : Option Deed}
    (hdeed : ∀ names, deed.toList.foldl Deed.carry names = names)
    (hstands : ∀ names, t.Standing r.serial names → u.Standing r.serial names) :
    Carried u (deeds ++ deed.toList) r := by
  obtain ⟨before, later, names, hdeeds, hs, hfold⟩ := h
  refine ⟨before, later ++ deed.toList, names, by rw [hdeeds]; simp, hstands names hs, ?_⟩
  rw [List.foldl_append, hdeed, hfold]

/-- **An edit carries every listed mount as its deed says.** -/
theorem carried_edit {ns next : Namespace} {deeds : List Deed} {deed : Option Deed} (ht : ns.tree.Stacked)
    (ha : ns.tree.Apart) (hb : Booked ns.tree ns.mounts) (h : ∀ r ∈ ns.mounts, Carried ns.tree deeds r)
    (edit : Edit ns deed next) : ∀ r ∈ next.mounts, Carried next.tree (deeds ++ deed.toList) r := by
  -- a listed record is that of a mount
  have hmount : ∀ r ∈ ns.mounts, ∃ m, ns.tree.node? r.serial = some (.mount m) := by
    intro r hr
    obtain ⟨s, hs⟩ := hb.found r hr
    obtain ⟨m, hm, -⟩ := Tree.actAt_eq_some.1 hs
    exact ⟨m, hm⟩
  intro r hr
  cases edit with
  | grow edit => exact (h r hr).stay (fun _ => rfl) fun _ hs => Tree.standing_grown ht.toLinked edit hs
  | prune edit =>
    refine (h r hr).stay (fun _ => rfl) fun _ hs => Tree.standing_pruned edit ?_ hs
    rintro rfl
    obtain ⟨m, hm⟩ := hmount r hr
    obtain ⟨dir, hdir⟩ := edit.directory
    rw [hm] at hdir
    cases hdir
  | @rename source target p id _ _ _ _ edit below _ _ leads origin wanted within =>
    have hid : id ≠ ns.tree.root := by
      rintro rfl
      exact Tree.root_not_child ht.toLinked below
    obtain ⟨before, later, names, hdeeds, hs, hfold⟩ := h r hr
    obtain ⟨now, hnow, hmoved⟩ :=
      Tree.standing_renamed ht.toLinked ha edit hid leads origin wanted within hs
    refine ⟨before, later ++ [.renamed source target], now, by rw [hdeeds]; simp, hnow, ?_⟩
    rw [List.foldl_append, hmoved]
    exact foldNames_moved hfold source.names target.names
  | @mount e m way _ edit _ named serial leads point =>
    rcases List.mem_append.1 hr with hr | hr
    · exact (h r hr).stay (fun _ => rfl) fun _ hs => Tree.standing_mounted ht.toLinked edit named hs
    · rw [List.mem_singleton.1 hr]
      refine ⟨deeds, [], way, rfl, ?_, point⟩
      rw [serial]
      exact Tree.standing_mount ht.toLinked edit named leads
  | @unmount id m _ edit =>
    obtain ⟨hr, hserial⟩ := List.mem_filter.1 hr
    have hact : ns.tree.actAt id = some (m.record, m.shadowed) := by rw [Tree.actAt, edit.mount]; rfl
    rw [decide_eq_true_eq, (hb.listed id _ _ hact).2] at hserial
    exact (h r hr).stay (fun _ => rfl) fun _ hs => Tree.standing_unmounted ht edit hserial hs
  | close => exact (h r hr).stay (fun _ => rfl) fun _ hs => hs

/-- where a listed mount is: the vertex of its record, the names on the way down to it or to the topmost mount over it,
and the deeds since it was mounted -/
structure Whereabouts (ns : Namespace) (deeds : List Deed) (r : MountRecord) (v : NodeId) (names : List String)
    (later : List Deed) : Prop where
  vertex : ∃ m, ns.tree.node? v = some (.mount m) ∧ m.record = r
  stands : ns.tree.Standing v names
  nowhereElse : ∀ others, ns.tree.Standing v others → others = names
  since : ∃ before, deeds = before ++ .mounted r :: later
  carried : foldNames names = foldNames (later.foldl Deed.carry r.point.names)

/-- **Where the listed mounts are.** Whatever has happened to a fresh namespace, every listed mount is at its mount point
carried along by the renames since it was mounted; and it is at the mount point itself unless one of them has given
another name to a directory on the mount point. -/
theorem run_whereabouts (id : NamespaceId) (settings : Settings) (now : Time) (events : List Event) :
    ∀ r ∈ ((new id settings now).run events).mounts, ∃ v names later,
      Whereabouts ((new id settings now).run events) ((new id settings now).deeds events) r v names later ∧
      ((∀ source target, .renamed source target ∈ later → foldNames source.names <+: foldNames r.point.names →
        foldNames source.names = foldNames target.names) → foldNames names = foldNames r.point.names) := by
  have hfresh := (good_new id settings now).tree
  have hpasses := run_passes hfresh events
  obtain ⟨-, hbooked, hcarried⟩ := Passes.keeps
    (motive := fun ns deeds => ns.tree.Apart ∧ Booked ns.tree ns.mounts ∧ ∀ r ∈ ns.mounts, Carried ns.tree deeds r)
    hfresh ⟨apart_new id settings now, booked_new id settings now, fun r hr => by cases hr⟩
    (fun _ _ _ _ hmid _ edit h => ⟨apart_edit hmid h.1 edit, booked_edit h.2.1 edit,
      carried_edit hmid h.1 h.2.1 h.2.2 edit⟩) hpasses
  have hstacked := hpasses.stacked hfresh
  intro r hr
  obtain ⟨before, later, names, hdeeds, hs, hfold⟩ := hcarried r hr
  obtain ⟨s, hact⟩ := hbooked.found r hr
  obtain ⟨m, hm, hrecord, -⟩ := Tree.actAt_eq_some.1 hact
  refine ⟨r.serial, names, later, ⟨⟨m, hm, hrecord⟩, hs, fun others ho => ?_, ⟨before, hdeeds⟩, hfold⟩, fun hkept => ?_⟩
  · exact Tree.standing_unique hstacked.toSound ho hs
  · rw [hfold]
    exact foldNames_foldl_carry hkept

/-! ## A directory above a mount renamed -/

/-- a volume in memory behind everything that is mounted -/
def emptyVolumes : External := fun _ => (MemoryStore.empty 0).filesystem

/-- a path of the namespace with the number 1 -/
def pathOf (names : List String) (h : ∀ n ∈ names, nameFault? n = none) : NamedPath :=
  ⟨⟨1, names⟩, checkNames_eq_ok.2 h⟩

/-- a volume mounted in a directory within another, and the outer directory renamed -/
def outerRenamed : List Event := [
  .turn ⟨emptyVolumes, 1, .createDirectories (pathOf ["a", "b"] (by decide))⟩,
  .turn ⟨emptyVolumes, 5, .mount ⟨.volume 0, .rootPath⟩ (pathOf ["a", "b"] (by decide))⟩,
  .turn ⟨emptyVolumes, 6, .rename (pathOf ["a"] (by decide)) (pathOf ["c"] (by decide))⟩]

/-- the record of the volume, made with the name the outer directory had then -/
def staleRecord : MountRecord := ⟨3, ⟨1, ["a", "b"]⟩, ⟨.volume 0, .rootPath⟩⟩

theorem outerRenamed_mounts : ((new 1 {} 0).run outerRenamed).mounts = [staleRecord] := by cbv

/-- the mount is below the new name, as the rename since then has carried it -/
theorem stale_whereabouts : staleRecord ∈ ((new 1 {} 0).run outerRenamed).mounts ∧ ∃ v names,
    Whereabouts ((new 1 {} 0).run outerRenamed) ((new 1 {} 0).deeds outerRenamed) staleRecord v names
      [.renamed ⟨1, ["a"]⟩ ⟨1, ["c"]⟩] ∧ foldNames names = foldNames ["c", "b"] := by
  have hlisted : staleRecord ∈ ((new 1 {} 0).run outerRenamed).mounts := by
    rw [outerRenamed_mounts]
    exact List.mem_singleton.2 rfl
  refine ⟨hlisted, ?_⟩
  obtain ⟨v, names, later, hplace, -⟩ := run_whereabouts 1 {} 0 outerRenamed staleRecord hlisted
  have hdeeds : (new 1 {} 0).deeds outerRenamed = [.mounted staleRecord, .renamed ⟨1, ["a"]⟩ ⟨1, ["c"]⟩] := by cbv
  obtain ⟨before, hsplit⟩ := hplace.since
  rw [hdeeds] at hsplit
  -- the volume was mounted once, so what comes after it is the rename
  have hlater : later = [.renamed ⟨1, ["a"]⟩ ⟨1, ["c"]⟩] := by
    cases before with
    | nil => exact (List.cons.inj hsplit).2.symm
    | cons first more =>
      have hrest := (List.cons.inj hsplit).2
      cases more with
      | nil => cases (List.cons.inj hrest).1
      | cons next more => exact absurd (List.cons.inj hrest).2 (by simp)
  subst hlater
  refine ⟨v, names, hplace, ?_⟩
  rw [hplace.carried]
  decide

/-- the list names a place where no mount is: the mount is below the new name of the outer directory, and nowhere else -/
theorem outerRenamed_misplaced : ((new 1 {} 0).run outerRenamed).mounts = [staleRecord] ∧
    (∃ m, ((new 1 {} 0).run outerRenamed).tree.node? 3 = some (.mount m) ∧ m.record = staleRecord) ∧
    ((new 1 {} 0).run outerRenamed).tree.Standing 3 ["c", "b"] ∧
    (∀ names, ((new 1 {} 0).run outerRenamed).tree.Standing 3 names → names = ["c", "b"]) ∧
    foldNames ["c", "b"] ≠ foldNames staleRecord.point.names := by
  have hstacked := (run_passes (good_new 1 {} 0).tree outerRenamed).stacked (good_new 1 {} 0).tree
  have houter : ((new 1 {} 0).run outerRenamed).tree.Leads 1 ([] ++ ["c"]) := by
    refine .child .root ?_ (by cbv)
    have hchildren : ((new 1 {} 0).run outerRenamed).tree.childrenOf
        ((new 1 {} 0).run outerRenamed).tree.root = [1] := by cbv
    rw [hchildren]
    exact List.mem_singleton.2 rfl
  have hway : ((new 1 {} 0).run outerRenamed).tree.Leads 3 (([] ++ ["c"]) ++ ["b"]) := by
    refine .child houter ?_ (by cbv)
    have hchildren : ((new 1 {} 0).run outerRenamed).tree.childrenOf 1 = [3] := by cbv
    rw [hchildren]
    exact List.mem_singleton.2 rfl
  have hstands : ((new 1 {} 0).run outerRenamed).tree.Standing 3 ["c", "b"] := ⟨3, .refl, hway⟩
  have hmount : ((new 1 {} 0).run outerRenamed).tree.node? 3 =
      some (.mount ⟨"b", staleRecord, .at 5, 2⟩) := by cbv
  refine ⟨outerRenamed_mounts, ⟨_, hmount, rfl⟩, hstands, fun names hn => ?_, by decide⟩
  exact Tree.standing_unique hstacked.toSound hn hstands

end Namespace

end MountSpace

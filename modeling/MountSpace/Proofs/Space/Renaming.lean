/-
What a rename does to paths. It succeeds exactly when it is asked to give a directory of the tree another name in the
same parent and the name is free or its own apart from case (`renameable_of_ok`, `rename_of_renameable`). Then the target
is put in the place of the source in every path: what was below the source is below the target, nothing is left below
the source, and all other paths lead where they led before (`rename_substitutes`).

What the mounted filesystems answer is not part of a rename. A path that crosses into one leads where it led as long as
that filesystem answers as before. One that shows this very namespace again does not: it answers from the tree that has
been changed (`mirrored_notices`).
-/
import MountSpace.Proofs.Space.Tandem
import MountSpace.Proofs.Space.Whereabouts
import MountSpace.Proofs.Tree.Ends
import MountSpace.Proofs.World.Returning

namespace MountSpace

namespace Namespace

/-- what a rename asks for: neither path is the root, their parents are the same apart from case, the source leads to a
directory of the tree, and the target leads nowhere or to that directory too -/
structure Renameable (ns : Namespace) (ext : External) (source target : AbsolutePath) : Prop where
  below : source.isRoot = false ∧ target.isRoot = false
  beside : ∃ above beside, source.parent? = some above ∧ target.parent? = some beside ∧ above.same beside = true
  free : ∃ id dir, ns.place ext source = .ok (.directory id dir) ∧
    ((∃ what, ns.place ext target = .error (.notFound what)) ∨
      ∃ place, ns.place ext target = .ok place ∧ place.nodeId? = some id)

/-- the target put in the place of the source in every path, told by what paths led to before and what they lead to
after -/
structure Substitutes (ns next : Namespace) (source target : AbsolutePath) (earlier later : External) : Prop where
  moved : ∀ rest, checkNames rest = .ok () →
    SameEnd (ns.place earlier ⟨ns.id, source.names ++ rest⟩) (next.place later ⟨ns.id, target.names ++ rest⟩)
  vacated : source.same target = false → ∀ rest, ∃ what,
    next.place later ⟨ns.id, source.names ++ rest⟩ = .error (.notFound what)
  beside : ∀ path : NamedPath, path.1.owner = ns.id → path.1.startsWith source = false →
    path.1.startsWith target = false → SameEnd (ns.place earlier path.1) (next.place later path.1)

section Rename

variable {ns : Namespace} {ext : External} {now : Time} {source target : AbsolutePath}

/-- a rename that succeeds has made sure of all it asks for -/
theorem renameable_of_ok (h : (ns.rename ext now source target).1 = .ok ()) : ns.Renameable ext source target := by
  rw [rename] at h
  cases hc : ns.check source with
  | error e =>
    rw [hc] at h
    cases h
  | ok _ =>
    cases hb : ns.checkBelongs target with
    | error e =>
      rw [hc, hb] at h
      cases h
    | ok _ =>
      obtain ⟨hopen, hsource⟩ := check_eq_ok.1 hc
      have htarget := checkBelongs_eq_ok.1 hb
      rcases path_cases source with ⟨-, hsp, -⟩ | ⟨front, name, hsn, hsp, -⟩
      · rw [hc, hb, hsp] at h
        cases h
      rcases path_cases target with ⟨-, htp, -⟩ | ⟨others, new, htn, htp, htl⟩
      · rw [hc, hb, hsp, htp] at h
        cases h
      rw [hc, hb, hsp, htp, htl] at h
      simp only at h
      cases hr : ns.tree.resolve ext source with
      | error e =>
        rw [hr] at h
        cases h
      | ok place =>
        rw [hr] at h
        rcases place with ⟨id, dir⟩ | ⟨id, m⟩ | ⟨n, at_⟩
        · simp only at h
          split at h
          · cases h
          next hsame =>
          rw [Bool.not_eq_true, Bool.not_eq_false'] at hsame
          cases he : ns.tree.resolveOrMissing ext target with
          | error e =>
            rw [he] at h
            cases h
          | ok existing =>
            rw [he] at h
            simp only at h
            split at h
            · cases h
            next hfree =>
            refine ⟨⟨by simp [AbsolutePath.isRoot, hsn], by simp [AbsolutePath.isRoot, htn]⟩, ⟨_, _, hsp, htp, hsame⟩,
              id, dir, (place_own hopen ext hsource).trans hr, ?_⟩
            rw [place_own hopen ext htarget]
            cases existing with
            | none => exact .inl (Tree.resolveOrMissing_eq_none.1 he)
            | some place => exact .inr ⟨place, Tree.resolveOrMissing_eq_some.1 he, by simpa using hfree⟩
        · cases h
        · cases h

/-- a rename that finds all it asks for gives the directory its new name -/
theorem rename_of_renameable (h : ns.tree.Stacked) (hopen : ns.isOpen = true) (hsource : source.owner = ns.id)
    (htarget : target.owner = ns.id) (r : ns.Renameable ext source target) (now : Time) :
    ∃ front beside name new id dir u, source.names = front ++ [name] ∧ target.names = beside ++ [new] ∧
      foldNames beside = foldNames front ∧ ns.tree.resolve ext source = .ok (.directory id dir) ∧
      ns.tree.rename id new now = some u ∧ ns.rename ext now source target = (.ok (), { ns with tree := u }) := by
  obtain ⟨above, others, hsp, htp, hsame⟩ := r.beside
  obtain ⟨id, dir, hr, hfree⟩ := r.free
  rw [place_own hopen ext hsource] at hr
  rw [place_own hopen ext htarget] at hfree
  rcases path_cases source with ⟨-, hsp', -⟩ | ⟨front, name, hsn, hsp', -⟩
  · rw [hsp'] at hsp
    cases hsp
  rcases path_cases target with ⟨-, htp', -⟩ | ⟨beside, new, htn, htp', htl⟩
  · rw [htp'] at htp
    cases htp
  cases Option.some.inj (hsp'.symm.trans hsp)
  cases Option.some.inj (htp'.symm.trans htp)
  obtain ⟨-, -, -, hd⟩ := Tree.directory_of_resolve h hr
  obtain ⟨u, hu⟩ := Option.isSome_iff_exists.1
    ((ns.tree.rename_isSome id new now).trans (Option.isSome_of_eq_some hd))
  refine ⟨front, beside, name, new, id, dir, u, hsn, htn, (AbsolutePath.same_iff.1 hsame).2.symm, hr, hu, ?_⟩
  obtain ⟨existing, hexisting, hown⟩ : ∃ existing, ns.tree.resolveOrMissing ext target = .ok existing ∧
      (existing.isSome && existing.bind Place.nodeId? ≠ some id) = false := by
    rcases hfree with hmissing | ⟨place, hplace, hid⟩
    · exact ⟨none, Tree.resolveOrMissing_eq_none.2 hmissing, rfl⟩
    · exact ⟨some place, by rw [Tree.resolveOrMissing, hplace], by simp [hid]⟩
  rw [rename, check_eq_ok.2 ⟨hopen, hsource⟩, checkBelongs_eq_ok.2 htarget, hsp, htp, htl]
  simp only [hr, hsame, hexisting, hown, hu, Bool.not_true, Bool.false_eq_true, if_false]

end Rename

/-- **Rename is path substitution.** After any run of a fresh namespace that is still open, and for all its paths, a
rename succeeds exactly when neither path is the root, the source leads to a directory of the tree, the parents are the
same apart from case, and the target leads nowhere or to the same directory. Then what was below the source is below the
target, nothing is left below the source unless the two are the same apart from case, and paths below neither lead where
they led, if the filesystems mounted in the namespace answer as they did. -/
theorem rename_substitutes (id : NamespaceId) (settings : Settings) (start : Time) (events : List Event)
    {ns : Namespace} (hns : ns = (new id settings start).run events) (hopen : ns.isOpen = true) (ext : External)
    (now : Time) (source target : NamedPath) (hsource : source.1.owner = ns.id) (htarget : target.1.owner = ns.id) :
    ((ns.rename ext now source.1 target.1).1 = .ok () ↔ ns.Renameable ext source.1 target.1) ∧
    ((ns.rename ext now source.1 target.1).1 = .ok () → ∀ earlier later, ns.tree.SameAnswers earlier later →
      ns.Substitutes (ns.rename ext now source.1 target.1).2 source.1 target.1 earlier later) := by
  have hfresh := (good_new id settings start).tree
  have hstacked : ns.tree.Stacked := hns ▸ (run_passes hfresh events).stacked hfresh
  have hapart : ns.tree.Apart := hns ▸ (run_apart id settings start events).1
  have done := fun r : ns.Renameable ext source.1 target.1 =>
    rename_of_renameable hstacked hopen hsource htarget r now
  refine ⟨⟨renameable_of_ok, fun r => ?_⟩, fun hok earlier later hsame => ?_⟩
  · obtain ⟨_, _, _, _, _, _, _, _, _, _, _, _, hdone⟩ := done r
    rw [hdone]
  obtain ⟨front, beside, name, new, v, dir, u, hsn, htn, hfold, hr, hu, hdone⟩ := done (renameable_of_ok hok)
  have passes := (rename_does hstacked ext now source.1 target.2).passes
  have stacked := passes.stacked hstacked
  have apart := passes.apart hstacked hapart
  rw [hdone] at stacked apart ⊢
  obtain ⟨own, r⟩ := Tree.renaming_of_rename hstacked.toLinked hapart stacked.toLinked apart hu
    (hsn ▸ (Tree.finds_directory hr).1) hfold
  rw [← hsn, ← htn] at r
  have before : ∀ path : AbsolutePath, path.owner = ns.id → ns.place earlier path = ns.tree.resolve later path :=
    fun path howner => (place_own hopen earlier howner).trans (Tree.resolve_local hsame path)
  have hopen' : ({ ns with tree := u } : Namespace).isOpen = true := hopen
  have after : ∀ path : AbsolutePath, path.owner = ns.id →
      ({ ns with tree := u } : Namespace).place later path = u.resolve later path :=
    fun path howner => place_own hopen' later howner
  refine ⟨fun rest hrest => ?_, fun hne rest => ?_, fun path howner hs ht => ?_⟩
  · rw [before _ rfl, after _ rfl]
    refine r.sameEnd_moved (fun n hn => ?_) later rfl rfl
    rcases List.mem_append.1 hn with hn | hn
    · exact checkNames_eq_ok.1 source.2 n hn
    · exact checkNames_eq_ok.1 hrest n hn
  · rw [after _ rfl]
    have hfolds : foldNames source.1.names ≠ foldNames target.1.names := by
      intro heq
      rw [AbsolutePath.same_iff.2 ⟨hsource.trans htarget.symm, heq⟩] at hne
      cases hne
    exact ⟨_, r.vacated later hfolds (by simp [hsn]) rfl⟩
  · rw [before _ howner, after _ howner]
    refine r.sameEnd_beside (checkNames_eq_ok.1 path.2) later (fun hp => ?_) fun hp => ?_
    · rw [AbsolutePath.startsWith_iff.2 ⟨howner.trans hsource.symm, hp⟩] at hs
      cases hs
    · rw [AbsolutePath.startsWith_iff.2 ⟨howner.trans htarget.symm, hp⟩] at ht
      cases ht

/-- a volume mounted in a directory within another -/
def nestedVolume : List Event := [
  .turn ⟨emptyVolumes, 1, .createDirectories (pathOf ["home", "disk"] (by decide))⟩,
  .turn ⟨emptyVolumes, 5, .mount ⟨.volume 0, .rootPath⟩ (pathOf ["home", "disk"] (by decide))⟩]

/-- the outer directory under another name -/
def disksMoved : Except FsError Unit × Namespace :=
  ((new 1 {} 0).run nestedVolume).rename emptyVolumes 6 ⟨1, ["home"]⟩ ⟨1, ["attic"]⟩

/-- the outer directory renamed takes the mount along -/
theorem nestedVolume_substitutes : ((new 1 {} 0).run nestedVolume).isOpen = true ∧ disksMoved.1 = .ok () ∧
    ((new 1 {} 0).run nestedVolume).Substitutes disksMoved.2 ⟨1, ["home"]⟩ ⟨1, ["attic"]⟩ emptyVolumes
      emptyVolumes := by
  have hopen : ((new 1 {} 0).run nestedVolume).isOpen = true := by cbv
  have hok : disksMoved.1 = .ok () := by cbv
  have hid : 1 = ((new 1 {} 0).run nestedVolume).id := by cbv
  obtain ⟨-, hsub⟩ := rename_substitutes 1 {} 0 nestedVolume rfl hopen emptyVolumes 6 (pathOf ["home"] (by decide))
    (pathOf ["attic"] (by decide)) hid hid
  exact ⟨hopen, hok, hsub hok emptyVolumes emptyVolumes fun _ _ _ => rfl⟩

end Namespace

/-! ## A namespace that is shown itself -/

namespace World

/-- the two with a directory more in the first -/
def mirroredWithDirectory : World := (mirrored.createDirectory 1 ⟨1, ["d"]⟩).2

/-- the directory renamed is missed at a path through both mounts, which begins with neither name -/
theorem mirrored_notices : (mirroredWithDirectory.rename 1 ⟨1, ["d"]⟩ ⟨1, ["e"]⟩).1 = .ok () ∧
    AbsolutePath.startsWith ⟨1, ["a", "b", "d"]⟩ ⟨1, ["d"]⟩ = false ∧
    AbsolutePath.startsWith ⟨1, ["a", "b", "d"]⟩ ⟨1, ["e"]⟩ = false ∧
    ∃ ns next, mirroredWithDirectory.namespace? 1 = some ns ∧ ns.isOpen = true ∧
      (mirroredWithDirectory.rename 1 ⟨1, ["d"]⟩ ⟨1, ["e"]⟩).2.namespace? 1 = some next ∧
      ¬ SameEnd (ns.place mirroredWithDirectory.external ⟨1, ["a", "b", "d"]⟩)
        (next.place (mirroredWithDirectory.rename 1 ⟨1, ["d"]⟩ ⟨1, ["e"]⟩).2.external ⟨1, ["a", "b", "d"]⟩) := by
  refine ⟨rfl, by decide, by decide, (mirroredWithDirectory.namespace? 1).get rfl,
    ((mirroredWithDirectory.rename 1 ⟨1, ["d"]⟩ ⟨1, ["e"]⟩).2.namespace? 1).get rfl, rfl, rfl, rfl, ?_⟩
  have before : ((mirroredWithDirectory.namespace? 1).get rfl).place mirroredWithDirectory.external
      ⟨1, ["a", "b", "d"]⟩ = .ok (.real "d" ⟨.space 2, .ofString "/b/d"⟩) := rfl
  have after : (((mirroredWithDirectory.rename 1 ⟨1, ["d"]⟩ ⟨1, ["e"]⟩).2.namespace? 1).get rfl).place
      (mirroredWithDirectory.rename 1 ⟨1, ["d"]⟩ ⟨1, ["e"]⟩).2.external ⟨1, ["a", "b", "d"]⟩ =
      .error (missing ["a", "b", "d"]) := rfl
  rw [before, after]
  exact id

end World

end MountSpace

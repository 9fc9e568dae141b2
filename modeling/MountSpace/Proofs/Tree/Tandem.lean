/-
Changes made in two trees at once, one with a mount over a vertex and one without it. A change of both that does not
touch the vertex succeeds in both or in neither and leaves them side by side (`Bracketed.append` and its like): the same
directory more or less, the same name, the same mount over another vertex, or another mount gone.

The two come to stand side by side when the mount is made (`bracketed_replace`). When it is taken away, what is left is
the tree that never had it, but for the number of the mount (`Bracketed.unmount_cover`).
-/
import MountSpace.Proofs.Tree.Bracket

namespace MountSpace

namespace Tree

/-- of what is attached, every mount can be taken away -/
theorem unmount_isSome_iff {t : Tree} (ht : t.Sound) {id : NodeId} : (t.unmount id).isSome ↔
    t.isAttached id = true ∧ ∃ m, t.node? id = some (.mount m) := by
  rw [unmount_isSome]
  refine and_congr_right fun _ => exists_congr fun m => and_iff_left_of_imp fun hm => ?_
  exact (ht.waits id m.shadowed (by rw [coverOf, hm]; rfl)).1

/-! ## Changes of both trees -/

namespace Bracketed

variable {n e : NodeId} {m : MountNode} {R : Time → Time → Prop} {t u : Tree} (h : t.Bracketed n e m R u)
include h

/-- a new node under the next number in both -/
theorem node_push {x y : Node} (hxy : x.Alike n R y) (k : NodeId) :
    Option.Rel (Node.Alike n R) (if k = t.nextId then some x else t.node? k)
      (if shift n k = u.nextId then some y else u.node? (shift n k)) := by
  rw [h.nextId_eq]
  simp only [shift_inj]
  split
  · exact .some hxy
  · exact h.node k

omit h in
/-- a node changed at one number in both -/
theorem node_map {f g : NodeId → Option Node} {k : NodeId} (hk : Option.Rel (Node.Alike n R) (f k) (g (shift n k)))
    (p : NodeId) {c c' : Node → Node} (hc : ∀ x y, x.Alike n R y → (c x).Alike n R (c' y)) :
    Option.Rel (Node.Alike n R) (if p = k then (f k).map c else f k)
      (if shift n p = shift n k then (g (shift n k)).map c' else g (shift n k)) := by
  simp only [shift_inj]
  split
  · generalize f k = a at hk ⊢
    generalize g (shift n k) = b at hk ⊢
    cases hk with
    | none => exact .none
    | some hxy => exact .some (hc _ _ hxy)
  · exact hk

/-- a node gone under one number in both -/
theorem node_drop (id k : NodeId) : Option.Rel (Node.Alike n R) (if id = k then none else t.node? k)
    (if shift n id = shift n k then none else u.node? (shift n k)) := by
  simp only [shift_inj]
  split
  · exact .none
  · exact h.node k

theorem ne_next : n ≠ u.nextId := by
  rw [h.nextId_eq]
  exact (shift_ne n _).symm

variable (ht : t.Sound) (hu : u.Sound) {a b : Time}
include ht hu

/-- a directory more in both -/
theorem append {p : NodeId} (hp : p ≠ e) (name : String) (hR : R a b) (hnext : R (a + 1) (b + 1)) :
    Option.Rel (fun x y => x.2.Bracketed n e m R y.2) (t.append p (.directory (.new name a)) (a + 1))
      (u.append (shift n p) (.directory (.new name b)) (b + 1)) := by
  have hattached := h.isAttached ht.toLinked hu.toLinked p
  have hfind := h.findChild p name
  rw [detour_of_ne hp] at hattached hfind
  refine rel_of_isSome ?_ fun x y hx hy => ?_
  · rw [append_isSome, append_isSome, hattached]
    show (_ && (u.findChild (shift n p) name).isNone) = (_ && (t.findChild p name).isNone)
    rw [hfind, Option.isNone_map]
  · obtain ⟨id, t'⟩ := x
    obtain ⟨id', u'⟩ := y
    have hg := grown_append ht.toLinked hx
    have hg' := grown_append hu.toLinked hy
    refine ⟨h.early, ?late, ?root, ?next, fun k => ?nodes, ?cover, ?named, fun k => ?children, ?bare⟩
    case late =>
      rw [nextId_append hx]
      exact Nat.le_succ_of_le h.late
    case root => rw [hg'.root, hg.root, h.root]
    case next => rw [nextId_append hx, nextId_append hy, h.next]
    case nodes =>
      rw [node?_append hx, node?_append hy]
      have hnew : (Node.directory (.new name a)).Alike n R (.directory (.new name b)) := .directory ⟨hR, hR, hR⟩
      exact node_map (f := fun k => if k = t.nextId then _ else t.node? k)
        (g := fun k => if k = u.nextId then _ else u.node? k) (h.node_push hnew k) p fun x y hxy => hxy.touch hnext
    case cover => rw [node?_append hy, if_neg (shift_ne n p), if_neg h.ne_next, h.cover]
    case named => rw [hg.name?, if_neg h.ne_nextId.symm, h.named]
    case children =>
      rw [hg'.children, hg.children, ← detour_of_ne hp, h.nextId_detour]
      simp only [detour_inj]
      split
      · rw [h.children, List.map_append]
        rfl
      · exact h.children k
    case bare => rw [hg'.children, ← detour_of_ne hp, if_neg (detour_ne h.early p).symm, h.bare]

/-- an empty directory less in both -/
theorem delete {id : NodeId} (hid : id ≠ e) (hpar : t.parentOf id ≠ some e) (hR : R a b) :
    Option.Rel (fun x y => x.Bracketed n e m R y) (t.deleteIfEmpty id a) (u.deleteIfEmpty (shift n id) b) := by
  have hparent := h.parentOf ht.toLinked hu.toLinked id
  have hchildren := h.children id
  rw [detour_of_ne hid] at hparent hchildren
  have hdirectory : (∃ d, u.node? (shift n id) = some (.directory d)) ↔ ∃ d, t.node? id = some (.directory d) := by
    have hnode := h.node id
    generalize t.node? id = x at hnode ⊢
    generalize u.node? (shift n id) = y at hnode ⊢
    cases hnode with
    | none => simp
    | some halike => cases halike <;> simp
  have hroot : shift n id ≠ u.root ↔ id ≠ t.root := by rw [h.root, ← detour_of_ne hid, ne_eq, detour_inj]
  refine rel_of_isSome ?_ fun t' u' hx hy => ?_
  · rw [Bool.eq_iff_iff, deleteIfEmpty_isSome_iff, deleteIfEmpty_isSome_iff, hdirectory, hroot, hparent, hchildren]
    simp
  · have hp := pruned_delete ht.toLinked hx
    have hp' := pruned_delete hu.toLinked hy
    obtain ⟨p, hparid, hnode⟩ := node?_delete hx
    obtain ⟨p', hparid', hnode'⟩ := node?_delete hy
    have hpe : p ≠ e := fun hpe => hpar (hpe ▸ hparid)
    obtain rfl : p' = shift n p := by
      rw [hparid, hparid', Option.map_some, detour_of_ne hpe] at hparent
      exact Option.some.inj hparent
    refine ⟨h.early, ?late, ?root, ?next, fun k => ?nodes, ?cover, ?named, fun k => ?children, ?bare⟩
    case late =>
      rw [nextId_delete hx]
      exact h.late
    case root => rw [hp'.root, hp.root, h.root]
    case next => rw [nextId_delete hx, nextId_delete hy, h.next]
    case nodes =>
      rw [hnode, hnode']
      exact node_map (f := fun k => if id = k then none else t.node? k)
        (g := fun k => if shift n id = k then none else u.node? k) (h.node_drop id k) p fun x y hxy => hxy.touch hR
    case cover => rw [hnode', if_neg (shift_ne n p), if_neg (shift_ne n id), h.cover]
    case named => rw [hp.name?, if_neg hid.symm, h.named]
    case children =>
      rw [hp'.children, hp.children, h.children, List.filter_map]
      refine congrArg _ (List.filter_congr fun c _ => ?_)
      simp only [Function.comp_apply, ← detour_of_ne hid, ne_eq, detour_inj]
    case bare =>
      rw [hp'.children, h.bare]
      rfl

omit ht hu in
/-- another name for a directory in both -/
theorem rename {id : NodeId} (hid : id ≠ e) (name : String) (hR : R a b) :
    Option.Rel (fun x y => x.Bracketed n e m R y) (t.rename id name a) (u.rename (shift n id) name b) := by
  refine rel_of_isSome ?_ fun t' u' hx hy => ?_
  · rw [rename_isSome, rename_isSome, h.node_isSome]
  · obtain ⟨hget, -⟩ := rename_eq_some hx
    have hr := renamed_rename hx
    have hr' := renamed_rename hy
    refine ⟨h.early, ?late, ?root, ?next, fun k => ?nodes, ?cover, ?named, fun k => ?children, ?bare⟩
    case late =>
      rw [nextId_rename hx]
      exact h.late
    case root => rw [hr'.root, hr.root, h.root]
    case next => rw [nextId_rename hx, nextId_rename hy, h.next]
    case nodes =>
      rw [node?_rename hx, node?_rename hy]
      exact node_map (f := t.node?) (g := u.node?) (h.node k) id fun x y hxy => (hxy.setName name).touch hR
    case cover => rw [node?_rename hy, if_neg (shift_ne n id), h.cover]
    case named => rw [hr.name? hget, if_neg hid.symm, h.named]
    case children => rw [hr'.children, hr.children, h.children]
    case bare => rw [hr'.children, h.bare]

omit ht hu in
/-- one vertex in the place of another in both -/
theorem swapped {x r : NodeId} {t' u' : Tree} (hs : t.Swapped x r t')
    (hs' : u.Swapped (detour n e x) (detour n e r) u') : u'.root = detour n e t'.root ∧
      (∀ k, u'.childrenOf (detour n e k) = (t'.childrenOf k).map (detour n e)) ∧ u'.childrenOf e = [] := by
  refine ⟨?_, fun k => ?_, ?_⟩
  · rw [hs'.root, hs.root, h.root, put_detour]
  · rw [hs'.children, hs.children, h.children, h.children]
    simp only [detour_inj]
    split
    · rfl
    · split
      · rfl
      · rw [List.map_map, List.map_map]
        exact List.map_congr_left fun c _ => put_detour n e x r c
  · rw [hs'.children, if_neg (detour_ne h.early x).symm, if_neg (detour_ne h.early r).symm, h.bare]
    rfl

/-- another mount over another vertex in both -/
theorem replace {x : NodeId} (hxe : x ≠ e) (name : String) (record : MountRecord) (hR : R a b) :
    Option.Rel (fun y z => y.2.Bracketed n e m R z.2)
      (t.replaceWith x (.mount ⟨name, record, .at a, x⟩))
      (u.replaceWith (shift n x) (.mount ⟨name, record.shift n, .at b, shift n x⟩)) := by
  have hattached := h.isAttached ht.toLinked hu.toLinked x
  rw [detour_of_ne hxe] at hattached
  refine rel_of_isSome ?_ fun y z hx hy => ?_
  · rw [replaceWith_isSome, replaceWith_isSome, hattached]
  · obtain ⟨id, t'⟩ := y
    obtain ⟨id', u'⟩ := z
    have hm := mounted_replace ht.toLinked (by rfl) hx
    have hm' := mounted_replace hu.toLinked (by rfl) hy
    have hs' : u.Swapped (detour n e x) (detour n e t.nextId) u' := by
      rw [detour_of_ne hxe, ← h.nextId_detour]
      exact hm'.toSwapped
    obtain ⟨hroot, hchildren, hbare⟩ := h.swapped hm.toSwapped hs'
    refine ⟨h.early, ?late, hroot, ?next, fun k => ?nodes, ?cover, ?named, hchildren, hbare⟩
    case late =>
      rw [nextId_replace hx]
      exact Nat.le_succ_of_le h.late
    case next => rw [nextId_replace hx, nextId_replace hy, h.next]
    case nodes =>
      rw [node?_replace (by rfl) hx, node?_replace (by rfl) hy]
      exact h.node_push (.mount ⟨hR, hR, hR⟩) k
    case cover => rw [node?_replace (by rfl) hy, if_neg h.ne_next, h.cover]
    case named => rw [hm.name?, if_neg h.ne_nextId.symm, h.named]

/-- another mount gone in both -/
theorem unmount {id : NodeId} (hid : id ≠ e) (he : t.isAttached e = true) :
    Option.Rel (fun x y => x.Bracketed n e m R y) (t.unmount id) (u.unmount (shift n id)) := by
  have hattached := h.isAttached ht.toLinked hu.toLinked id
  rw [detour_of_ne hid] at hattached
  refine rel_of_isSome ?_ fun t' u' hx hy => ?_
  · rw [Bool.eq_iff_iff, unmount_isSome_iff ht, unmount_isSome_iff hu, hattached]
    have hnode := h.node id
    generalize t.node? id = x at hnode ⊢
    generalize u.node? (shift n id) = y at hnode ⊢
    cases hnode with
    | none => simp
    | some halike => cases halike <;> simp
  · obtain ⟨x, hm⟩ := unmounted_unmount ht hx
    obtain ⟨y, hm'⟩ := unmounted_unmount hu hy
    obtain ⟨y', hy', halike⟩ := h.node_eq_some hm.mount
    rw [hm'.mount] at hy'
    cases hy'
    -- what was covered is not attached, so it is another vertex
    have hre : x.shadowed ≠ e := by
      intro hre
      have hwaits := hm.waited
      rw [hre, he] at hwaits
      cases hwaits
    have hs' : u.Swapped (detour n e id) (detour n e x.shadowed) u' := by
      rw [detour_of_ne hid, detour_of_ne hre]
      cases halike with
      | mount => exact hm'.toSwapped
    obtain ⟨hroot, hchildren, hbare⟩ := h.swapped hm.toSwapped hs'
    refine ⟨h.early, ?late, hroot, ?next, fun k => ?nodes, ?cover, ?named, hchildren, hbare⟩
    case late =>
      rw [nextId_unmount hx]
      exact h.late
    case next => rw [nextId_unmount hx, nextId_unmount hy, h.next]
    case nodes =>
      rw [node?_unmount hx, node?_unmount hy]
      exact h.node_drop id k
    case cover => rw [node?_unmount hy, if_neg (shift_ne n id), h.cover]
    case named => rw [hm.name?, if_neg hid.symm, h.named]

end Bracketed

/-! ## The mount made and taken away -/

/-- directories shadow nothing, as is so of all that a namespace makes -/
def Plain (t : Tree) : Prop := ∀ k d, t.face? k = some (.directory d) → d.shadowed = none

/-- nodes from before a number was given out do not speak of it or of any after it -/
theorem alike_old {t : Tree} (ht : t.Stacked) (plain : t.Plain)
    (serial : ∀ k m, t.node? k = some (.mount m) → m.record.serial = k) {R : Time → Time → Prop} (hR : ∀ a, R a a)
    {k : NodeId} {x : Node} (hx : t.node? k = some x) : x.Alike t.nextId R x := by
  have hk := lt_nextId_of_get? (get?_of_node? hx)
  cases x with
  | directory d =>
    obtain ⟨name, times, shadowed⟩ := d
    have hnone : shadowed = none := plain k _ (by rw [face?, hx]; rfl)
    subst hnone
    exact .directory ⟨hR _, hR _, hR _⟩
  | mount m =>
    have hrecord : m.record.shift t.nextId = m.record := by
      rw [MountRecord.shift, serial k m hx, shift_of_lt hk, ← serial k m hx]
    have hshadowed : shift t.nextId m.shadowed = m.shadowed := shift_of_lt (Nat.lt_trans (ht.older k m hx) hk)
    have halike : Node.Alike t.nextId R (.mount m)
        (.mount ⟨m.name, m.record.shift t.nextId, m.times, shift t.nextId m.shadowed⟩) :=
      .mount ⟨hR _, hR _, hR _⟩
    rwa [hrecord, hshadowed] at halike

/-- **A tree with a new mount over a vertex, beside the tree from before.** -/
theorem bracketed_replace {t u : Tree} (ht : t.Stacked) (plain : t.Plain)
    (serial : ∀ k m, t.node? k = some (.mount m) → m.record.serial = k) {R : Time → Time → Prop} (hR : ∀ a, R a a)
    {e id : NodeId} {m : MountNode} (hm : m.shadowed = e) (named : t.name? e = some m.name)
    (hu : t.replaceWith e (.mount m) = some (id, u)) : t.Bracketed t.nextId e m R u := by
  obtain ⟨-, he, -⟩ := replaceWith_eq_some hu
  have hmounted := mounted_replace ht.toLinked hm hu
  have early := ht.lt_nextId he
  have hput : ∀ k, k < t.nextId → detour t.nextId e k = put e t.nextId k := by
    intro k hk
    rw [detour, put, shift_of_lt hk]
  have hold : ∀ k c, c ∈ t.childrenOf k → c < t.nextId := fun k c hc =>
    ht.lt_nextId (attached_of_child ht.toLinked hc)
  refine ⟨early, Nat.le_refl _, ?root, nextId_replace hu, fun k => ?nodes, ?cover, named, fun k => ?children, ?bare⟩
  case root => rw [hmounted.root, hput _ (ht.lt_nextId (attached_root t))]
  case nodes =>
    rw [node?_replace hm hu, if_neg (shift_ne _ _)]
    by_cases hk : k < t.nextId
    · rw [shift_of_lt hk]
      cases hx : t.node? k with
      | none => exact .none
      | some x => exact .some (alike_old ht plain serial hR hx)
    · rw [shift_of_le (Nat.le_of_not_lt hk), node?, node?, t.get?_of_nextId_le (Nat.le_of_not_lt hk),
        t.get?_of_nextId_le (Nat.le_succ_of_le (Nat.le_of_not_lt hk))]
      exact .none
  case cover => rw [node?_replace hm hu, if_pos rfl]
  case children =>
    rw [hmounted.children]
    by_cases hk : k = e
    · subst hk
      rw [detour_self, if_neg (Nat.ne_of_gt early), if_pos rfl]
      refine (List.map_id _).symm.trans (List.map_congr_left fun c hc => ?_)
      rw [hput c (hold k c hc), put, if_neg fun hck : c = k => ht.ne_parent k ((ht.linked k k).2 (hck ▸ hc))]
      rfl
    · have hke := detour_ne early k
      have hkn : detour t.nextId e k ≠ t.nextId := by
        rw [detour_of_ne hk]
        exact shift_ne _ _
      rw [if_neg hke, if_neg hkn, detour_of_ne hk]
      by_cases hkl : k < t.nextId
      · rw [shift_of_lt hkl]
        exact List.map_congr_left fun c hc => (hput c (hold k c hc)).symm
      · have hnone : ∀ j, t.nextId ≤ j → t.childrenOf j = [] := by
          intro j hj
          rw [childrenOf, t.get?_of_nextId_le hj]
          rfl
        rw [shift_of_le (Nat.le_of_not_lt hkl), hnone _ (Nat.le_succ_of_le (Nat.le_of_not_lt hkl)),
          hnone k (Nat.le_of_not_lt hkl)]
        rfl
  case bare => rw [hmounted.children, if_pos rfl]

/-- **Without the mount, the tree is the other one**, but for the number of the mount. -/
theorem Bracketed.unmount_cover {n e : NodeId} {m : MountNode} {R : Time → Time → Prop} {t u : Tree}
    (h : t.Bracketed n e m R u) (ht : t.Sound) (hu : u.Sound) (hm : m.shadowed = e) (he : t.isAttached e = true) :
    ∃ last, u.unmount n = some last ∧ t.Skipping n R last := by
  have hn : u.isAttached n = true := by
    rw [← detour_self n e, h.isAttached ht.toLinked hu.toLinked]
    exact he
  obtain ⟨last, hlast⟩ := Option.isSome_iff_exists.1 ((unmount_isSome_iff hu).2 ⟨hn, m, h.cover⟩)
  obtain ⟨m', hunmounted⟩ := unmounted_unmount hu hlast
  obtain rfl : m' = m := by
    have hm' := hunmounted.mount
    rw [h.cover] at hm'
    cases hm'
    rfl
  have children : ∀ k, last.childrenOf (shift n k) = (t.childrenOf k).map (shift n) := by
    intro k
    rw [hunmounted.children, if_neg (shift_ne n k), hm]
    have hke : shift n k = e ↔ k = e := by
      rw [← shift_of_lt h.early, shift_inj, shift_of_lt h.early]
    simp only [hke]
    split
    · next hk =>
      have cover := h.children e
      rw [detour_self] at cover
      rw [cover, hk]
      refine List.map_congr_left fun c hc => detour_of_ne fun hce => ?_
      exact ht.ne_parent e ((ht.linked e e).2 (hce ▸ hc))
    · next hk =>
      rw [← detour_of_ne hk, h.children, List.map_map]
      exact List.map_congr_left fun c _ => put_detour_self h.early c
  have linked : last.Linked := (sound_unmount hu hlast).toLinked
  refine ⟨last, hlast, skipping_of_views ht.toLinked linked ?root ?next (fun k => ?nodes) children ?bare ?skipped⟩
  case root => rw [hunmounted.root, hm, h.root, put_detour_self h.early]
  case next => rw [nextId_unmount hlast, h.next]
  case nodes =>
    rw [node?_unmount hlast, if_neg (shift_ne n k).symm]
    exact h.node k
  case bare => rw [hunmounted.children, if_pos rfl]
  case skipped => rw [node?_unmount hlast, if_pos rfl]

end Tree

end MountSpace

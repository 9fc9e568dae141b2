/-
What each change of a tree leaves, in the terms that arguments about runs need: the faces of the vertices, which are
their nodes without the times that any change may touch; the lists of children; the root; and which vertices are
attached. One structure for each change, and one lemma that the change has it:
- `grown_append`: a new directory at the end of a list of children;
- `pruned_delete`: a leaf gone;
- `renamed_rename`: a directory under another name;
- `mounted_replace`, `unmounted_unmount`: one vertex in the place of another, with its children (`Swapped`), whichever of
  the two is the mount.
What is looked at in a face is the name and the act of mounting, so both follow for each change.
-/
import MountSpace.Proofs.Tree.Calls

namespace MountSpace

namespace Node

/-- the node without its times -/
def face : Node → Node
  | directory d => directory { d with times := .at 0 }
  | mount m => mount { m with times := .at 0 }

/-- the act of mounting that a mount stands for, and the vertex it covers -/
def act : Node → Option (MountRecord × NodeId)
  | directory _ => none
  | mount m => some (m.record, m.shadowed)

@[simp] theorem face_touch (now : Time) (n : Node) : (n.touch now).face = n.face := by cases n <;> rfl

@[simp] theorem face_setName (name : String) (n : Node) : (n.setName name).face = n.face.setName name := by
  cases n <;> rfl

@[simp] theorem name_face (n : Node) : n.face.name = n.name := by cases n <;> rfl

@[simp] theorem name_setName (name : String) (n : Node) : (n.setName name).name = name := by cases n <;> rfl

@[simp] theorem act_face (n : Node) : n.face.act = n.act := by cases n <;> rfl

@[simp] theorem act_setName (name : String) (n : Node) : (n.setName name).act = n.act := by cases n <;> rfl

theorem covers_eq_act (n : Node) : n.covers = n.act.map Prod.snd := by cases n <;> rfl

end Node

namespace Tree

/-! ## Faces -/

/-- the node of a vertex without its times -/
def face? (t : Tree) (id : NodeId) : Option Node := (t.node? id).map Node.face

/-- the name of a vertex -/
def name? (t : Tree) (id : NodeId) : Option String := (t.node? id).map Node.name

/-- the act of mounting at a vertex, and the vertex that is covered by it -/
def actAt (t : Tree) (id : NodeId) : Option (MountRecord × NodeId) := (t.node? id).bind Node.act

theorem name?_eq_face (t : Tree) (id : NodeId) : t.name? id = (t.face? id).map Node.name := by
  simp [name?, face?, Function.comp_def]

theorem actAt_eq_face (t : Tree) (id : NodeId) : t.actAt id = (t.face? id).bind Node.act := by
  unfold actAt face?
  cases t.node? id with
  | none => rfl
  | some n => exact n.act_face.symm

theorem coverOf_eq_actAt (t : Tree) (id : NodeId) : t.coverOf id = (t.actAt id).map Prod.snd := by
  unfold coverOf actAt
  cases t.node? id with
  | none => rfl
  | some n => exact n.covers_eq_act

theorem coverOf_of_actAt {t : Tree} {id s : NodeId} {record : MountRecord} (h : t.actAt id = some (record, s)) :
    t.coverOf id = some s := by
  rw [coverOf_eq_actAt, h]
  rfl

theorem actAt_eq_some {t : Tree} {id s : NodeId} {record : MountRecord} : t.actAt id = some (record, s) ↔
    ∃ m, t.node? id = some (.mount m) ∧ m.record = record ∧ m.shadowed = s := by
  unfold actAt
  cases t.node? id with
  | none => simp
  | some n => cases n <;> simp [Node.act]

theorem face?_isSome (t : Tree) (id : NodeId) : (t.face? id).isSome = (t.get? id).isSome := by
  rw [face?, Option.isSome_map, node?_isSome]

theorem face?_touched (t : Tree) (p : NodeId) (now : Time) (k : NodeId) :
    (t.touched p now k).map Node.face = t.face? k := by
  unfold touched face?
  split
  · simp [Function.comp_def]
  · rfl

theorem face?_nextId (t : Tree) : t.face? t.nextId = none := by
  rw [face?, node?, t.get?_of_nextId_le (Nat.le_refl _)]
  rfl

/-! ## A leaf more, a leaf less, another name -/

/-- one more directory, at the end of the children of a vertex that has none of its name -/
structure Grown (t : Tree) (p : NodeId) (name : String) (u : Tree) : Prop where
  above : t.isAttached p = true
  free : t.findChild p name = none
  root : u.root = t.root
  face : ∀ k, u.face? k = if k = t.nextId then some (.directory (.new name 0)) else t.face? k
  children : ∀ k, u.childrenOf k = if k = p then t.childrenOf p ++ [t.nextId] else t.childrenOf k
  attached : ∀ k, u.isAttached k = true ↔ k = t.nextId ∨ t.isAttached k = true
  next : t.nextId ≤ u.nextId

/-- a directory without children gone -/
structure Pruned (t : Tree) (id : NodeId) (u : Tree) : Prop where
  directory : ∃ dir, t.node? id = some (.directory dir)
  bare : t.childrenOf id = []
  below : id ≠ t.root
  root : u.root = t.root
  face : ∀ k, u.face? k = if k = id then none else t.face? k
  children : ∀ k, u.childrenOf k = (t.childrenOf k).filter (· ≠ id)
  attached : ∀ k, u.isAttached k = true ↔ k ≠ id ∧ t.isAttached k = true
  next : t.nextId ≤ u.nextId

/-- a directory under another name -/
structure Renamed (t : Tree) (id : NodeId) (name : String) (u : Tree) : Prop where
  root : u.root = t.root
  face : ∀ k, u.face? k = if k = id then (t.face? k).map (Node.setName name) else t.face? k
  children : ∀ k, u.childrenOf k = t.childrenOf k
  attached : ∀ k, u.isAttached k = t.isAttached k
  next : t.nextId ≤ u.nextId

theorem grown_append {t u : Tree} (h : t.Linked) {p id : NodeId} {name : String} {made now : Time}
    (hu : t.append p (.directory (.new name made)) now = some (id, u)) : t.Grown p name u := by
  obtain ⟨-, hp, hfree, rfl⟩ := append_eq_some hu
  have hpn : p ≠ t.nextId := Nat.ne_of_lt (h.lt_nextId hp)
  refine ⟨hp, hfree, rfl, fun k => ?_, fun k => ?_, fun k => ?_, ?_⟩
  · rw [face?, node?_withChildren, face?_touched, face?, node?_push]
    split
    · rfl
    · rfl
  · rw [childrenOf_withChildren, childrenOf_push, get?_push]
    by_cases hk : k = p
    · subst hk
      simp [hpn, h.present hp]
    · rw [if_neg fun hc => hk hc.1.symm, if_neg hk]
      split
      · next hn => rw [hn, childrenOf_nextId]
      · rfl
  · have hroot : (t.push ⟨.directory (.new name made), some p, []⟩).root = t.root := rfl
    rw [isAttached_iff, isAttached_iff, parentOf_withChildren, parentOf_push]
    show k = t.root ∨ _ ↔ _
    split
    · next hk => simp [hk]
    · next hk => simp [hk]
  · rw [withChildren, nextId_update, nextId_push]
    exact Nat.le_succ _

theorem pruned_delete {t u : Tree} (h : t.Linked) {id : NodeId} {now : Time} (hu : t.deleteIfEmpty id now = some u) :
    t.Pruned id u := by
  obtain ⟨dir, p, hroot, hv, rfl⟩ := deleteIfEmpty_eq_some hu
  have hpar := parentOf_of_get? hv
  have hbare := childrenOf_of_get? hv
  have hpid : p ≠ id := fun he => h.ne_parent id (he ▸ hpar)
  have hpresent : (t.get? p).isSome := get?_isSome_of_mem_childrenOf ((h.linked p id).1 hpar)
  refine ⟨⟨dir, node?_of_get? hv⟩, hbare, hroot, rfl, fun k => ?_, fun k => ?_, fun k => ?_, ?_⟩
  · rw [face?, node?_withChildren, face?_touched, face?, node?_drop]
    by_cases hk : k = id
    · rw [if_pos hk.symm, if_pos hk]
      rfl
    · rw [if_neg (Ne.symm hk), if_neg hk]
      rfl
  · rw [childrenOf_withChildren, childrenOf_drop, get?_drop]
    by_cases hkp : p = k
    · subst hkp
      simp [Ne.symm hpid, hpresent]
    · rw [if_neg fun hc => hkp hc.1]
      split
      · next hk => rw [← hk, hbare]; rfl
      · -- the leaf stands in the list of its parent alone
        refine (List.filter_eq_self.2 fun c hc => ?_).symm
        rw [decide_eq_true_eq]
        rintro rfl
        rw [(h.linked k c).2 hc] at hpar
        exact hkp (Option.some.inj hpar).symm
  · rw [isAttached_iff, isAttached_iff, parentOf_withChildren, parentOf_drop]
    show k = t.root ∨ _ ↔ _
    split
    · next hk => simp [← hk, hroot]
    · next hk => simp [Ne.symm hk]
  · exact Nat.le_of_eq (by rw [withChildren, nextId_update, nextId_drop])

theorem renamed_rename {t u : Tree} {id : NodeId} {name : String} {now : Time} (hu : t.rename id name now = some u) :
    t.Renamed id name u := by
  obtain ⟨-, rfl⟩ := rename_eq_some hu
  have hparent : ∀ k, (t.update id fun v => { v with node := (v.node.setName name).touch now }).parentOf k =
      t.parentOf k := fun k => parentOf_update t id k fun _ => rfl
  refine ⟨rfl, fun k => ?_, fun k => ?_, fun k => ?_, ?_⟩
  · rw [face?, node?_update]
    by_cases hk : k = id
    · rw [if_pos hk.symm, if_pos hk, face?, node?]
      simp [Function.comp_def]
    · rw [if_neg (Ne.symm hk), if_neg hk]
      rfl
  · have hchildren := childrenOf_update t id k (f := fun v => { v with node := (v.node.setName name).touch now })
      (fun l => l) fun _ => rfl
    rw [ite_self] at hchildren
    exact hchildren
  · rw [isAttached, hparent]
    rfl
  · exact Nat.le_of_eq (nextId_update t id _).symm

/-! ## One vertex in the place of another -/

/-- a vertex, or the one that has come to stand in its place -/
def put (e r k : NodeId) : NodeId := if k = e then r else k

/-- a detached vertex in the place of an attached one, with its children -/
structure Swapped (t : Tree) (e r : NodeId) (u : Tree) : Prop where
  stood : t.isAttached e = true
  waited : t.isAttached r = false
  root : u.root = put e r t.root
  children : ∀ k, u.childrenOf k =
    if k = e then [] else if k = r then t.childrenOf e else (t.childrenOf k).map (put e r)
  attached : ∀ k, u.isAttached k = true ↔ k = r ∨ (k ≠ e ∧ t.isAttached k = true)
  next : t.nextId ≤ u.nextId

theorem swapped_splice {t : Tree} (h : t.Linked) {e r : NodeId} (he : t.isAttached e = true)
    (hr : (t.get? r).isSome) (hd : t.isAttached r = false) : t.Swapped e r (t.splice e r) := by
  have hswap := h.swap he hr hd
  refine ⟨he, hd, ?_, fun k => ?_, isAttached_splice h he hr hd, Nat.le_of_eq (nextId_splice t e r).symm⟩
  · rw [root_splice_linked h he hr hd, put]
  · by_cases hke : k = e
    · rw [childrenOf_splice hswap, if_pos hke, if_pos hke]
    · by_cases hkr : k = r
      · rw [childrenOf_splice hswap, if_neg hke, if_neg hke, if_pos hkr, if_pos hkr]
      · rw [if_neg hke, if_neg hkr]
        exact childrenOf_splice_map h he hr hd hke hkr

/-- a new mount in the place of the vertex it covers -/
structure Mounted (t : Tree) (e : NodeId) (m : MountNode) (u : Tree) : Prop extends Swapped t e t.nextId u where
  covers : m.shadowed = e
  face : ∀ k, u.face? k = if k = t.nextId then some (Node.mount m).face else t.face? k

/-- a covered vertex back in the place of the mount over it, and the mount gone -/
structure Unmounted (t : Tree) (id : NodeId) (m : MountNode) (u : Tree) : Prop
    extends Swapped t id m.shadowed u where
  mount : t.node? id = some (.mount m)
  face : ∀ k, u.face? k = if k = id then none else t.face? k

theorem mounted_replace {t u : Tree} (h : t.Linked) {e id : NodeId} {m : MountNode} (hm : m.shadowed = e)
    (hu : t.replaceWith e (.mount m) = some (id, u)) : t.Mounted e m u := by
  obtain ⟨-, he, hu⟩ := replaceWith_eq_some hu
  rw [if_pos (show (Node.mount m).shadowed = some e from congrArg some hm)] at hu
  have hpush := linked_push h (.mount m)
  have hpe : (t.push ⟨.mount m, none, []⟩).isAttached e = true := by rw [isAttached_push_free]; exact he
  have hpd : (t.push ⟨.mount m, none, []⟩).isAttached t.nextId = false := by
    rw [isAttached_push_free]; exact isAttached_nextId h
  have hpn : ((t.push ⟨.mount m, none, []⟩).get? t.nextId).isSome := by rw [get?_push, if_pos rfl]; rfl
  obtain ⟨-, -, hroot, hchildren, hattached, hnext⟩ := swapped_splice hpush hpe hpn hpd
  rw [hu]
  refine ⟨⟨he, isAttached_nextId h, hroot, fun k => ?_, fun k => ?_, ?_⟩, hm, fun k => ?_⟩
  · rw [hchildren, childrenOf_push_free, childrenOf_push_free]
  · rw [hattached, isAttached_push_free]
  · rw [nextId_push] at hnext
    exact Nat.le_of_succ_le hnext
  · show ((t.supplant e (.mount m)).node? k).map Node.face = _
    rw [node?_supplant]
    split
    · rfl
    · rfl

theorem unmounted_unmount {t u : Tree} (h : t.Sound) {id : NodeId} (hu : t.unmount id = some u) :
    ∃ m, t.Unmounted id m u := by
  obtain ⟨m, hid, hm, hr, rfl⟩ := unmount_eq_some hu
  have hd := (h.waits id m.shadowed (by rw [coverOf, hm]; rfl)).2
  have hswap := h.toLinked.swap hid hr hd
  obtain ⟨-, -, hroot, hchildren, hattached, hnext⟩ := swapped_splice h.toLinked hid hr hd
  have hgone : (t.splice id m.shadowed).isAttached id = false := by
    rw [← Bool.not_eq_true, hattached]
    rintro (hx | ⟨hx, -⟩)
    · exact hswap.ne hx.symm
    · exact hx rfl
  refine ⟨m, ⟨hid, hd, hroot, fun k => ?_, fun k => ?_, by rw [nextId_drop]; exact hnext⟩, hm, fun k => ?_⟩
  · rw [← hchildren, childrenOf_drop]
    split
    · next hk => rw [← hk, hchildren, if_pos rfl]
    · rfl
  · have hparent : ((t.splice id m.shadowed).drop id).parentOf k = (t.splice id m.shadowed).parentOf k := by
      rw [parentOf_drop]
      split
      · next hk => rw [← hk, ((isAttached_eq_false _ _).1 hgone).2]
      · rfl
    rw [← hattached, isAttached, isAttached, hparent]
    rfl
  · rw [face?, node?_drop, node?_splice]
    by_cases hk : k = id
    · rw [if_pos hk.symm, if_pos hk]
      rfl
    · rw [if_neg (Ne.symm hk), if_neg hk]
      rfl

/-! ## Names and acts -/

section Views

variable {t u : Tree}

theorem actAt_nextId (t : Tree) : t.actAt t.nextId = none := by
  rw [actAt_eq_face, face?_nextId]
  rfl

theorem Grown.name? {p : NodeId} {name : String} (hu : t.Grown p name u) (k : NodeId) :
    u.name? k = if k = t.nextId then some name else t.name? k := by
  rw [name?_eq_face, name?_eq_face, hu.face]
  split
  · rfl
  · rfl

theorem Grown.actAt {p : NodeId} {name : String} (hu : t.Grown p name u) (k : NodeId) : u.actAt k = t.actAt k := by
  rw [actAt_eq_face, hu.face]
  split
  · next hk => rw [hk, actAt_nextId]; rfl
  · rw [actAt_eq_face]

theorem Pruned.name? {id : NodeId} (hu : t.Pruned id u) (k : NodeId) :
    u.name? k = if k = id then none else t.name? k := by
  rw [name?_eq_face, name?_eq_face, hu.face]
  split
  · rfl
  · rfl

theorem Pruned.actAt {id : NodeId} (hu : t.Pruned id u) (k : NodeId) : u.actAt k = t.actAt k := by
  obtain ⟨dir, hdir⟩ := hu.directory
  rw [actAt_eq_face, hu.face]
  split
  · next hk => rw [hk, Tree.actAt, hdir]; rfl
  · rw [actAt_eq_face]

theorem Renamed.name? {id : NodeId} {name : String} (hu : t.Renamed id name u) (hid : (t.get? id).isSome)
    (k : NodeId) : u.name? k = if k = id then some name else t.name? k := by
  obtain ⟨v, hv⟩ := Option.isSome_iff_exists.1 hid
  rw [name?_eq_face, name?_eq_face, hu.face]
  split
  · next hk => simp [hk, face?, node?, hv]
  · rfl

theorem Renamed.actAt {id : NodeId} {name : String} (hu : t.Renamed id name u) (k : NodeId) :
    u.actAt k = t.actAt k := by
  rw [actAt_eq_face, actAt_eq_face, hu.face]
  split
  · cases t.face? k with
    | none => rfl
    | some n => exact n.act_setName name
  · rfl

theorem Mounted.name? {e : NodeId} {m : MountNode} (hu : t.Mounted e m u) (k : NodeId) :
    u.name? k = if k = t.nextId then some m.name else t.name? k := by
  rw [name?_eq_face, name?_eq_face, hu.face]
  split
  · rfl
  · rfl

theorem Mounted.actAt {e : NodeId} {m : MountNode} (hu : t.Mounted e m u) (k : NodeId) :
    u.actAt k = if k = t.nextId then some (m.record, e) else t.actAt k := by
  rw [actAt_eq_face, actAt_eq_face, hu.face, ← hu.covers]
  split
  · rfl
  · rfl

theorem Unmounted.name? {id : NodeId} {m : MountNode} (hu : t.Unmounted id m u) (k : NodeId) :
    u.name? k = if k = id then none else t.name? k := by
  rw [name?_eq_face, name?_eq_face, hu.face]
  split
  · rfl
  · rfl

theorem Unmounted.actAt {id : NodeId} {m : MountNode} (hu : t.Unmounted id m u) (k : NodeId) :
    u.actAt k = if k = id then none else t.actAt k := by
  rw [actAt_eq_face, actAt_eq_face, hu.face]
  split
  · rfl
  · rfl

end Views

end Tree

end MountSpace

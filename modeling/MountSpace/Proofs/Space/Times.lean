/-
When the time of a directory changes. What counts is who its children are: a directory made in it has a number that was
not there before, a directory taken out of it is nowhere afterwards (`Tree.Makes`, `Tree.Loses`). Another name counts as
well. Nothing else does: a mount over a child takes the child's place and the child stays, a mount that goes is no
directory, and what happens further down or further up happens to other vertices.

- `turn_times`: a turn keeps the times of a namespace apart, and changes the time of exactly those vertices that it
  touches (`Namespace.Touches`);
- `touches_rename_iff`, `not_touches_mount`, `not_touches_unmount`: what renames and mounts touch.
-/
import MountSpace.Proofs.Space.Runs
import MountSpace.Proofs.Tree.Times

namespace MountSpace

namespace Tree

/-- a directory is made in a vertex -/
def Makes (t u : Tree) (v : NodeId) : Prop :=
  ∃ c ∈ u.childrenOf v, t.nextId ≤ c ∧ ∃ dir, u.node? c = some (.directory dir)

/-- a directory is taken out of a vertex -/
def Loses (t u : Tree) (v : NodeId) : Prop :=
  ∃ c ∈ t.childrenOf v, (∃ dir, t.node? c = some (.directory dir)) ∧ u.node? c = none

variable {t u : Tree}

theorem Linked.child_lt (h : t.Linked) {v c : NodeId} (hc : c ∈ t.childrenOf v) : c < t.nextId :=
  h.lt_nextId ((t.isAttached_iff c).2 (.inr ⟨v, (h.linked v c).2 hc⟩))

/-- nothing is made where no child is new, and nothing is lost where all directories stay -/
theorem not_makes (h : ∀ v, ∀ c ∈ u.childrenOf v, t.nextId ≤ c → ∃ m, u.node? c = some (.mount m)) (v : NodeId) :
    ¬t.Makes u v := by
  rintro ⟨c, hc, hnew, dir, hd⟩
  obtain ⟨m, hm⟩ := h v c hc hnew
  rw [hd] at hm
  cases hm

theorem not_loses (h : ∀ c dir, t.node? c = some (.directory dir) → (u.node? c).isSome) (v : NodeId) :
    ¬t.Loses u v := by
  rintro ⟨c, -, ⟨dir, hd⟩, hgone⟩
  have there := h c dir hd
  rw [hgone] at there
  cases there

theorem makes_refl (h : t.Linked) (v : NodeId) : ¬t.Makes t v :=
  not_makes (fun _ _ hc hnew => absurd (h.child_lt hc) (Nat.not_lt.2 hnew)) v

theorem loses_refl (t : Tree) (v : NodeId) : ¬t.Loses t v :=
  not_loses (fun _ _ hd => Option.isSome_of_eq_some hd) v

/-- a face that is kept is the face of a vertex that is still there -/
theorem isSome_of_face {k : NodeId} (hf : u.face? k = t.face? k) {n : Node} (hk : t.node? k = some n) :
    (u.node? k).isSome := by
  have hface : u.face? k = some n.face := by rw [hf, face?, hk]; rfl
  rw [← Option.isSome_map (f := Node.face)]
  exact Option.isSome_of_eq_some hface

/-! ## Directories more -/

/-- some directories more, each at the end of the children of a vertex -/
structure Planted (t : Tree) (now later : Time) (u : Tree) : Prop where
  next : t.nextId ≤ u.nextId
  children : ∀ v, ∃ new, u.childrenOf v = t.childrenOf v ++ new ∧ ∀ c ∈ new, t.nextId ≤ c
  face : ∀ c, c < t.nextId → u.face? c = t.face? c
  linked : u.Linked
  stamped : t.Stamped now → u.Stamped later
  aged : t.Aged now (t.Makes u) u

namespace Planted

variable {w : Tree} {now mid later : Time}

theorem refl (h : t.Linked) (hle : now ≤ later) : t.Planted now later t := by
  refine ⟨le_rfl, fun v => ⟨[], by simp, nofun⟩, fun _ _ => rfl, h, fun hs => hs.mono hle, ?_⟩
  exact (Aged.refl t now).congr fun v _ => (iff_false_intro (makes_refl h v)).symm

/-- the clock may be read again later -/
theorem mono (h : t.Planted now mid u) (hle : mid ≤ later) : t.Planted now later u :=
  ⟨h.next, h.children, h.face, h.linked, fun hs => (h.stamped hs).mono hle, h.aged⟩

/-- what is made in two steps is made in one of them -/
theorem makes_iff (h : t.Planted now mid u) (hw : u.Planted mid later w) (v : NodeId) :
    t.Makes w v ↔ t.Makes u v ∨ u.Makes w v := by
  obtain ⟨new, hchildren, hnew⟩ := hw.children v
  constructor
  · rintro ⟨c, hc, hge, dir, hd⟩
    rw [hchildren] at hc
    rcases List.mem_append.1 hc with hold | hlast
    · -- a child of the first step is a directory after it
      have hlt := h.linked.child_lt hold
      exact .inl ⟨c, hold, hge, directory_of_face (hw.face c hlt).symm hd⟩
    · exact .inr ⟨c, by rw [hchildren]; exact hc, hnew c hlast, dir, hd⟩
  · rintro (⟨c, hc, hge, dir, hd⟩ | ⟨c, hc, hge, hd⟩)
    · have hlt := h.linked.child_lt hc
      exact ⟨c, by rw [hchildren]; exact List.mem_append_left _ hc, hge, directory_of_face (hw.face c hlt) hd⟩
    · exact ⟨c, hc, h.next.trans hge, hd⟩

theorem trans (h : t.Planted now mid u) (hle : now ≤ mid) (hw : u.Planted mid later w) : t.Planted now later w := by
  refine ⟨h.next.trans hw.next, fun v => ?_, fun c hc => (hw.face c (hc.trans_le h.next)).trans (h.face c hc),
    hw.linked, fun hs => hw.stamped (h.stamped hs), ?_⟩
  · obtain ⟨first, hfirst, hge⟩ := h.children v
    obtain ⟨new, hnew, hlast⟩ := hw.children v
    refine ⟨first ++ new, by rw [hnew, hfirst, List.append_assoc], fun c hc => ?_⟩
    exact (List.mem_append.1 hc).elim (hge c) fun hc => h.next.trans (hlast c hc)
  · exact (h.aged.trans hle hw.aged).congr fun v _ => (h.makes_iff hw v).symm

theorem not_loses (h : t.Planted now later u) (v : NodeId) : ¬t.Loses u v := by
  refine Tree.not_loses (fun c dir hd => ?_) v
  obtain ⟨x, hx, -⟩ := Option.map_eq_some_iff.1 hd
  exact isSome_of_face (h.face c (lt_nextId_of_get? hx)) hd

end Planted

theorem planted_append (h : t.Linked) {p id : NodeId} {name : String} {now : Time}
    (hu : t.append p (.directory (.new name now)) (now + 1) = some (id, u)) : t.Planted now (now + 2) u := by
  have grown := grown_append h hu
  have makes : ∀ v, v = p ↔ t.Makes u v := by
    intro v
    constructor
    · rintro rfl
      have made : u.face? t.nextId = some (.directory (.new name 0)) := by rw [grown.face, if_pos rfl]
      obtain ⟨n, hn, hface⟩ := Option.map_eq_some_iff.1 made
      refine ⟨t.nextId, by rw [grown.children, if_pos rfl]; simp, le_rfl, ?_⟩
      cases n with
      | directory dir => exact ⟨dir, hn⟩
      | mount m => cases hface
    · rintro ⟨c, hc, hge, -⟩
      by_contra hne
      rw [grown.children, if_neg hne] at hc
      exact absurd (h.child_lt hc) (Nat.not_lt.2 hge)
  refine ⟨grown.next, fun v => ?_, fun c hc => by rw [grown.face, if_neg hc.ne], ?_, stamped_append hu,
    (aged_append hu).congr fun v _ => makes v⟩
  · rw [grown.children]
    split
    · next heq => exact ⟨[t.nextId], by rw [heq], by simp⟩
    · exact ⟨[], by simp, nofun⟩
  · obtain ⟨-, hp, -, rfl⟩ := append_eq_some hu
    exact linked_append h hp _ _

/-! ## Other changes -/

/-- a tree after a change, as far as times go: they are apart, and new in the vertices that were touched -/
structure Timely (t : Tree) (now later : Time) (touched : NodeId → Prop) (u : Tree) : Prop where
  stamped : t.Stamped now → u.Stamped later
  aged : t.Aged now touched u

/-- a directory is made in a vertex or taken out of it -/
def Changes (t u : Tree) (v : NodeId) : Prop := t.Makes u v ∨ t.Loses u v

theorem Timely.mono {now mid later : Time} {touched : NodeId → Prop} (h : t.Timely now mid touched u) (hle : mid ≤ later) :
    t.Timely now later touched u :=
  ⟨fun hs => (h.stamped hs).mono hle, h.aged⟩

theorem not_changes (hm : ∀ v, ¬t.Makes u v) (hl : ∀ v, ¬t.Loses u v) (v : NodeId) : ¬t.Changes u v :=
  not_or.2 ⟨hm v, hl v⟩

/-- a tree after a change by which nothing was touched -/
structure Still (t : Tree) (now later : Time) (u : Tree) : Prop where
  stamped : t.Stamped now → u.Stamped later
  aged : t.Aged now (fun _ => False) u
  unchanged : ∀ v, ¬t.Changes u v

theorem Still.timely {now later : Time} (h : t.Still now later u) : t.Timely now later (t.Changes u) u :=
  ⟨h.stamped, h.aged.congr fun v _ => (iff_false_intro (h.unchanged v)).symm⟩

theorem still_refl (h : t.Linked) {now later : Time} (hle : now ≤ later) : t.Still now later t :=
  ⟨fun hs => hs.mono hle, .refl t now, not_changes (makes_refl h) (loses_refl t)⟩

theorem Planted.timely {now later : Time} (h : t.Planted now later u) : t.Timely now later (t.Changes u) u :=
  ⟨h.stamped, h.aged.congr fun v _ => (or_iff_left (h.not_loses v)).symm⟩

/-- a directory taken out touches its parent -/
theorem timely_delete (h : t.Linked) {id : NodeId} {now : Time} (hu : t.deleteIfEmpty id now = some u) :
    t.Timely now (now + 1) (t.Changes u) u := by
  have pruned := pruned_delete h hu
  obtain ⟨dir, hdir⟩ := pruned.directory
  obtain ⟨p, hp, -⟩ := node?_delete hu
  have gone : u.node? id = none := by
    have hface : u.face? id = none := by rw [pruned.face, if_pos rfl]
    exact Option.map_eq_none_iff.1 hface
  have touched : ∀ v, v = p ↔ t.Changes u v := by
    intro v
    constructor
    · rintro rfl
      exact .inr ⟨id, (h.linked v id).1 hp, ⟨dir, hdir⟩, gone⟩
    · rintro (⟨c, hc, hge, -⟩ | ⟨c, hc, ⟨other, hother⟩, hgone⟩)
      · rw [pruned.children] at hc
        exact absurd (h.child_lt (List.mem_filter.1 hc).1) (Nat.not_lt.2 hge)
      · by_cases hcid : c = id
        · subst hcid
          exact Option.some.inj (((h.linked v c).2 hc).symm.trans hp)
        · have there := isSome_of_face (by rw [pruned.face, if_neg hcid]) hother
          rw [hgone] at there
          cases there
  have written := writes_delete hu hp
  exact ⟨written.stamped, written.aged.congr fun v _ => touched v⟩

theorem rename_ne_none {id : NodeId} {n : Node} (hn : t.node? id = some n) {name : String} {now : Time} :
    t.rename id name now ≠ none := by
  have there := t.rename_isSome id name now
  rw [hn] at there
  exact Option.isSome_iff_ne_none.1 there

/-- another name touches the vertex that gets it, and changes no directory -/
theorem timely_rename (h : t.Linked) {id : NodeId} {name : String} {now : Time}
    (hu : t.rename id name now = some u) : t.Timely now (now + 1) (· = id) u ∧ ∀ v, ¬t.Changes u v := by
  have renamed := renamed_rename hu
  have written := writes_rename hu
  refine ⟨⟨written.stamped, written.aged⟩, not_changes (not_makes fun v c hc hge => ?_) (not_loses fun c dir hd => ?_)⟩
  · rw [renamed.children] at hc
    exact absurd (h.child_lt hc) (Nat.not_lt.2 hge)
  · rw [node?_rename hu, hd]
    split <;> rfl

/-- whose place another vertex takes, the children are those of before and that vertex -/
theorem Swapped.child_cases {e r : NodeId} (hu : t.Swapped e r u) (h : t.Linked) {v c : NodeId}
    (hc : c ∈ u.childrenOf v) : c = r ∨ c < t.nextId := by
  rw [hu.children] at hc
  split at hc
  · cases hc
  · split at hc
    · exact .inr (h.child_lt hc)
    · obtain ⟨d, hd, rfl⟩ := List.mem_map.1 hc
      rw [put]
      split
      · exact .inl rfl
      · exact .inr (h.child_lt hd)

/-- a mount touches nothing that was there -/
theorem still_replace (h : t.Linked) {e id : NodeId} {m : MountNode} {now : Time} (hm : m.shadowed = e)
    (hnow : m.times.modified = now) (hu : t.replaceWith e (.mount m) = some (id, u)) : t.Still now (now + 1) u := by
  have mounted := mounted_replace h hm hu
  refine ⟨(writes_replace hm hnow hu).stamped, aged_replace hm hnow hu,
    not_changes (not_makes fun v c hc hge => ?_) (not_loses fun c dir hd => ?_)⟩
  · -- a child with a new number is the mount
    obtain rfl := (mounted.child_cases h hc).resolve_right (Nat.not_lt.2 hge)
    exact ⟨m, by rw [node?_replace hm hu, if_pos rfl]⟩
  · obtain ⟨x, hx, -⟩ := Option.map_eq_some_iff.1 hd
    exact isSome_of_face (by rw [mounted.face, if_neg (lt_nextId_of_get? hx).ne]) hd

/-- a mount taken away touches nothing that stays -/
theorem still_unmount (h : t.Sound) {id : NodeId} (hu : t.unmount id = some u) (now : Time) : t.Still now now u := by
  obtain ⟨m, unmounted⟩ := unmounted_unmount h hu
  refine ⟨fun hs => hs.less fun k τ hk => modified?_unmount hu hk, aged_unmount hu now,
    not_changes (not_makes fun v c hc hge => ?_) (not_loses fun c dir hd => ?_)⟩
  · -- the vertex that comes back was there all the time
    have waiting := (h.waits id m.shadowed (by rw [coverOf, unmounted.mount]; rfl)).1
    obtain ⟨x, hx⟩ := Option.isSome_iff_exists.1 waiting
    rcases unmounted.child_cases h.toLinked hc with rfl | hlt
    · exact absurd (lt_nextId_of_get? hx) (Nat.not_lt.2 hge)
    · exact absurd hlt (Nat.not_lt.2 hge)
  · have hne : c ≠ id := by
      rintro rfl
      rw [unmounted.mount] at hd
      cases hd
    exact isSome_of_face (by rw [unmounted.face, if_neg hne]) hd

end Tree

/-- the clock readings of an operation -/
def Operation.readings : Operation → Nat
  | .createDirectory _ => 2
  | .createDirectories path => 2 * path.1.names.length
  | .delete _ | .rename _ _ | .mount _ _ => 1
  | .unmount _ | .listDirectory _ | .resolve _ => 0

namespace Namespace

/-- a turn gives a directory another name -/
def Renames (ns : Namespace) (turn : Turn) (v : NodeId) : Prop :=
  ∃ source target dir, turn.operation = .rename source target ∧ (ns.turn turn).1 = .done (.ok ()) ∧
    ns.tree.resolve turn.ext source.1 = .ok (.directory v dir)

/-- a turn touches a vertex: a directory is made in it or taken out of it, or it gets another name -/
def Touches (ns : Namespace) (turn : Turn) (v : NodeId) : Prop :=
  ns.tree.Changes (ns.turn turn).2.tree v ∨ ns.Renames turn v

/-- readings later -/
theorem le_add_readings (now : Time) (readings : Nat) : now ≤ now + readings :=
  Int.le_add_of_nonneg_right (Int.natCast_nonneg readings)

section Operations

variable {ns : Namespace} (h : ns.tree.Linked) (ext : External) (now : Time)
include h

theorem createDirectory_planted (path : AbsolutePath) :
    ns.tree.Planted now (now + 2) (ns.createDirectory ext now path).2.tree := by
  have same : ns.tree.Planted now (now + 2) ns.tree := .refl h (le_add_readings now 2)
  unfold createDirectory
  split
  · exact same
  · split
    · split
      · exact same
      · split
        · next hu => exact Tree.planted_append h hu
        · exact same
      · exact same
    · exact same

theorem createAlong_planted (now : Time) (walked names : List String) :
    ns.tree.Planted now (now + (2 * names.length : Nat)) (createAlong ext now walked names ns).2.tree := by
  induction names generalizing ns walked now with
  | nil => exact .refl h (le_add_readings now 0)
  | cons name rest ih =>
    have two : now ≤ now + 2 := le_add_readings now 2
    have later : now + (2 * (name :: rest).length : Nat) = now + 2 + (2 * rest.length : Nat) := by
      have count : 2 * (rest.length + 1) = 2 + 2 * rest.length := by omega
      rw [List.length_cons, count, Int.natCast_add, ← Int.add_assoc]
      rfl
    rw [later]
    -- a name that is there already takes no time
    have passed : ns.tree.Planted now (now + 2 + (2 * rest.length : Nat))
        (createAlong ext now (walked ++ [name]) rest ns).2.tree := by
      refine (ih h now _).mono ?_
      rw [Int.add_assoc, Int.add_comm 2, ← Int.add_assoc]
      exact le_add_readings _ 2
    have made := createDirectory_planted h ext now ⟨ns.id, walked ++ [name]⟩
    rw [createAlong]
    split
    · exact .refl h (two.trans (le_add_readings _ _))
    · exact passed
    · split
      · exact .refl h (two.trans (le_add_readings _ _))
      · exact passed
    · split
      · next heq =>
        rw [heq] at made
        exact made.trans two (ih made.linked _ _)
      · next heq =>
        rw [heq] at made
        exact made.trans two (ih made.linked _ _)
      · next heq =>
        rw [heq] at made
        exact made.mono (le_add_readings _ _)

theorem createDirectories_planted (path : AbsolutePath) :
    ns.tree.Planted now (now + (2 * path.names.length : Nat)) (ns.createDirectories ext now path).2.tree := by
  unfold createDirectories
  split
  · exact .refl h (le_add_readings now _)
  · exact createAlong_planted h ext now [] path.names

theorem delete_timely (path : AbsolutePath) : ns.tree.Timely now (now + 1)
    (ns.tree.Changes (ns.delete ext now path).2.tree) (ns.delete ext now path).2.tree := by
  have same := (Tree.still_refl h (le_add_readings now 1)).timely
  unfold delete
  split
  · exact same
  · split
    · exact same
    · split
      · exact same
      · split
        · next hu => exact Tree.timely_delete h hu
        · split
          · exact same
          · exact same
      · exact same
      · exact same

theorem mount_still (request : MountRequest) : ns.tree.Still now (now + 1) (ns.mount ext now request).2.tree := by
  have same : ns.tree.Still now (now + 1) ns.tree := Tree.still_refl h (le_add_readings now 1)
  have covered (existing : NodeId) (name : String) :
      ns.tree.Still now (now + 1) (ns.cover now request existing name).2.tree := by
    unfold cover
    dsimp only
    split
    · next hu => exact Tree.still_replace h (by rfl) (by rfl) hu
    · exact same
  unfold mount
  repeat' split
  all_goals first | exact same | exact covered _ _

omit h in
theorem unmount_still (h : ns.tree.Sound) (path : AbsolutePath) :
    ns.tree.Still now now (ns.unmount ext path).2.tree := by
  have same : ns.tree.Still now now ns.tree := Tree.still_refl h.toLinked le_rfl
  unfold unmount
  split
  · exact same
  · split
    · next hu => exact Tree.still_unmount h hu now
    · exact same
  · exact same

omit h in
/-- a rename is refused, or gives a directory another name -/
theorem rename_cases (h : ns.tree.Stacked) (source target : AbsolutePath) :
    (∃ e, ns.rename ext now source target = (.error e, ns)) ∨
    ∃ id dir name u, ns.tree.resolve ext source = .ok (.directory id dir) ∧ ns.tree.rename id name now = some u ∧
      ns.rename ext now source target = (.ok (), { ns with tree := u }) := by
  unfold rename
  split
  · exact .inl ⟨_, rfl⟩
  · exact .inl ⟨_, rfl⟩
  · split
    · split
      · exact .inl ⟨_, rfl⟩
      · exact .inl ⟨_, rfl⟩
      · exact .inl ⟨_, rfl⟩
      · next hr =>
        split
        · exact .inl ⟨_, rfl⟩
        · split
          · exact .inl ⟨_, rfl⟩
          · split
            · exact .inl ⟨_, rfl⟩
            · split
              · next hu => exact .inr ⟨_, _, _, _, hr, hu, rfl⟩
              · next hu =>
                -- what a path leads to is there
                obtain ⟨-, -, -, hd⟩ := Tree.directory_of_resolve h hr
                exact absurd hu (Tree.rename_ne_none hd)
    · exact .inl ⟨_, rfl⟩

omit h in
theorem rename_timely (h : ns.tree.Stacked) (source target : AbsolutePath) :
    ns.tree.Timely now (now + 1) (fun v => (ns.rename ext now source target).1 = .ok () ∧
      ∃ dir, ns.tree.resolve ext source = .ok (.directory v dir)) (ns.rename ext now source target).2.tree ∧
    ∀ v, ¬ns.tree.Changes (ns.rename ext now source target).2.tree v := by
  obtain ⟨e, hr⟩ | ⟨id, dir, name, u, hid, hu, hr⟩ := rename_cases ext now h source target
  · rw [hr]
    have same := Tree.still_refl h.toLinked (le_add_readings now 1)
    exact ⟨⟨same.stamped, same.aged.congr fun v _ => (iff_false_intro fun hok => nomatch hok.1).symm⟩, same.unchanged⟩
  · rw [hr]
    obtain ⟨timely, unchanged⟩ := Tree.timely_rename h.toLinked hu
    refine ⟨⟨timely.stamped, timely.aged.congr fun v _ => ?_⟩, unchanged⟩
    constructor
    · rintro rfl
      exact ⟨rfl, dir, hid⟩
    · rintro ⟨-, other, hother⟩
      rw [hid] at hother
      cases hother
      rfl

end Operations

/-! ## Turns -/

section Turns

variable {ns : Namespace} {turn : Turn}

/-- nothing but a rename gives a directory another name -/
theorem not_renames (h : ∀ source target, turn.operation ≠ .rename source target) (v : NodeId) :
    ¬ns.Renames turn v := by
  rintro ⟨source, target, -, hop, -⟩
  exact h source target hop

theorem changes_iff_touches (h : ∀ source target, turn.operation ≠ .rename source target) (v : NodeId) :
    ns.tree.Changes (ns.turn turn).2.tree v ↔ ns.Touches turn v :=
  (or_iff_left (not_renames h v)).symm

variable (h : ns.tree.Stacked)
include h

/-- a rename touches the directory that gets another name, and neither those above it nor those below -/
theorem touches_rename_iff (ext : External) (now : Time) (source target : NamedPath) (v : NodeId) :
    ns.Touches ⟨ext, now, .rename source target⟩ v ↔ (ns.rename ext now source.1 target.1).1 = .ok () ∧
      ∃ dir, ns.tree.resolve ext source.1 = .ok (.directory v dir) := by
  constructor
  · rintro (hchanged | ⟨_, _, dir, hop, hok, hdir⟩)
    · exact absurd hchanged ((rename_timely ext now h source.1 target.1).2 v)
    · cases hop
      exact ⟨Answer.done.inj hok, dir, hdir⟩
  · rintro ⟨hok, dir, hdir⟩
    exact .inr ⟨source, target, dir, rfl, congrArg Answer.done hok, hdir⟩

/-- mounting touches nothing, not even what it covers -/
theorem not_touches_mount (ext : External) (now : Time) (source : ExternalPath) (at_ : NamedPath) (v : NodeId) :
    ¬ns.Touches ⟨ext, now, .mount source at_⟩ v := by
  intro ht
  have hchanged := (changes_iff_touches (fun _ _ => by simp) v).2 ht
  exact (mount_still h.toLinked ext now ⟨source, at_.1⟩).unchanged v hchanged

/-- taking a mount away touches nothing, not even what it had covered -/
theorem not_touches_unmount (ext : External) (now : Time) (path : NamedPath) (v : NodeId) :
    ¬ns.Touches ⟨ext, now, .unmount path⟩ v := by
  intro ht
  have hchanged := (changes_iff_touches (fun _ _ => by simp) v).2 ht
  exact (unmount_still ext now h.toSound path.1).unchanged v hchanged

/-- **A turn keeps the times apart, and changes the times of the vertices that it touches and of no others.** -/
theorem turn_times (turn : Turn) :
    ns.tree.Timely turn.now (turn.now + turn.operation.readings) (ns.Touches turn) (ns.turn turn).2.tree := by
  have changing (hop : ∀ source target, turn.operation ≠ .rename source target)
      (timely : ns.tree.Timely turn.now (turn.now + turn.operation.readings)
        (ns.tree.Changes (ns.turn turn).2.tree) (ns.turn turn).2.tree) :
      ns.tree.Timely turn.now (turn.now + turn.operation.readings) (ns.Touches turn) (ns.turn turn).2.tree :=
    ⟨timely.stamped, timely.aged.congr fun v _ => changes_iff_touches hop v⟩
  obtain ⟨ext, now, operation⟩ := turn
  cases operation with
  | createDirectory path => exact changing nofun (createDirectory_planted h.toLinked ext now path.1).timely
  | createDirectories path => exact changing nofun (createDirectories_planted h.toLinked ext now path.1).timely
  | delete path => exact changing nofun (delete_timely h.toLinked ext now path.1)
  | mount source at_ => exact changing nofun (mount_still h.toLinked ext now ⟨source, at_.1⟩).timely
  | unmount path => exact changing nofun ((unmount_still ext now h.toSound path.1).timely.mono (le_add_readings now 0))
  | listDirectory path => exact changing nofun (Tree.still_refl h.toLinked (le_add_readings now 0)).timely
  | resolve path => exact changing nofun (Tree.still_refl h.toLinked (le_add_readings now 0)).timely
  | rename source target =>
    have timely := (rename_timely ext now h source.1 target.1).1
    exact ⟨timely.stamped, timely.aged.congr fun v _ => (touches_rename_iff h ext now source target v).symm⟩

end Turns

end Namespace

end MountSpace

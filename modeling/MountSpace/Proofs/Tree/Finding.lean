/-
Vertices looked up by names. A path is walked in the tree from directory to directory, each name leading to the first
child that bears it (`Finds`). No filesystem is asked on such a walk, so what it finds does not depend on what they
answer (`Finds.resolve`), and a walk that ends at a vertex has not left the tree (`finds_of_resolve`).

What a change of the tree does to look-ups: a directory more leaves all of them alone, and any other change leaves alone
those that do not pass through the vertex that is changed (`Finds.pruned` and its like). That takes names that are
apart: a name that was looked up past a sibling could otherwise find the sibling now.
-/
import MountSpace.Proofs.Tree.Ways
import MountSpace.Proofs.World.Walk

namespace MountSpace

namespace Tree

/-- the names lead down from one vertex to another, past directories only -/
inductive Finds (t : Tree) : NodeId → List String → NodeId → Prop where
  | here {id : NodeId} : Finds t id [] id
  | down {id c last : NodeId} {d : Directory} {name : String} {rest : List String}
      (node : t.node? id = some (.directory d)) (child : t.findChild id name = some c) (on : Finds t c rest last) :
      Finds t id (name :: rest) last

section Names

variable {t : Tree} {id last : NodeId}

theorem finds_append {before rest : List String} :
    t.Finds id (before ++ rest) last ↔ ∃ mid, t.Finds id before mid ∧ t.Finds mid rest last := by
  induction before generalizing id with
  | nil =>
    constructor
    · exact fun h => ⟨id, .here, h⟩
    · rintro ⟨mid, hb, hr⟩
      cases hb
      exact hr
  | cons name before ih =>
    constructor
    · intro h
      cases h with
      | down node child on =>
        obtain ⟨mid, hb, hr⟩ := ih.1 on
        exact ⟨mid, .down node child hb, hr⟩
    · rintro ⟨mid, hb, hr⟩
      cases hb with
      | down node child on => exact .down node child (ih.2 ⟨mid, on, hr⟩)

/-- one name more -/
theorem Finds.snoc {names : List String} {c : NodeId} {name : String} {d : Directory} (h : t.Finds id names last)
    (node : t.node? last = some (.directory d)) (child : t.findChild last name = some c) :
    t.Finds id (names ++ [name]) c :=
  finds_append.2 ⟨last, h, .down node child .here⟩

theorem Finds.present {names : List String} (h : t.Finds id names last) (hl : (t.node? last).isSome) :
    (t.node? id).isSome := by
  cases h with
  | here => exact hl
  | down node _ _ => exact Option.isSome_of_eq_some node

theorem findChild_eq_some {name : String} {c : NodeId} (h : t.findChild id name = some c) :
    c ∈ t.childrenOf id ∧ ∃ own, t.name? c = some own ∧ Text.fold own = Text.fold name :=
  ⟨List.mem_of_find?_eq_some h, Option.map_eq_some_iff.1 (isNamed_iff.1 (List.find?_some h))⟩

theorem findChild_congr {name other : String} (h : Text.fold name = Text.fold other) (k : NodeId) :
    t.findChild k name = t.findChild k other := by
  refine List.find?_congr fun c _ => ?_
  rw [Bool.eq_iff_iff, isNamed_iff, isNamed_iff, h]

/-- names equal apart from case find the same vertex -/
theorem Finds.same {names others : List String} {a b : NodeId} (h : t.Finds id names a) (ho : t.Finds id others b)
    (hf : foldNames names = foldNames others) : a = b := by
  induction h generalizing others with
  | here =>
    cases ho with
    | here => rfl
    | down => cases hf
  | down node child _ ih =>
    cases ho with
    | here => cases hf
    | down node' child' on' =>
      obtain ⟨hname, hrest⟩ := List.cons.inj hf
      rw [findChild_congr hname, child'] at child
      cases child
      exact ih on' hrest

/-- what is found by names has a way of these names, apart from case -/
theorem Finds.leads {names above : List String} (h : t.Finds id names last) (hup : t.Leads id above) :
    ∃ way, t.Leads last (above ++ way) ∧ foldNames way = foldNames names := by
  induction h generalizing above with
  | here => exact ⟨[], by rw [List.append_nil]; exact hup, rfl⟩
  | down node child _ ih =>
    obtain ⟨hmem, own, hname, hfold⟩ := findChild_eq_some child
    obtain ⟨way, hway, hnames⟩ := ih (hup.child hmem hname)
    refine ⟨own :: way, by simpa using hway, ?_⟩
    rw [foldNames, foldNames, List.map_cons, List.map_cons, hfold]
    exact congrArg _ hnames

/-- a vertex is found in one place -/
theorem finds_unique (h : t.Linked) {names others : List String} (hn : t.Finds t.root names last)
    (ho : t.Finds t.root others last) : foldNames names = foldNames others := by
  obtain ⟨way, hway, hfold⟩ := hn.leads .root
  obtain ⟨way', hway', hfold'⟩ := ho.leads .root
  cases leads_unique h hway hway'
  exact hfold.symm.trans hfold'

/-- a walk along names does not pass what other names find, unless it is on the way -/
theorem Finds.elsewhere (h : t.Linked) {names others : List String} (ho : t.Finds t.root others last)
    (hn : ¬ foldNames others <+: foldNames names) (before : List String) (k : NodeId) (hb : before <+: names)
    (hk : t.Finds t.root before k) : k ≠ last := by
  rintro rfl
  rw [finds_unique h ho hk] at hn
  exact hn (hb.map Text.fold)

theorem Finds.ne (h : t.Linked) {names others : List String} {k : NodeId} (ho : t.Finds t.root others last)
    (hn : ¬ foldNames others <+: foldNames names) (hk : t.Finds t.root names k) : k ≠ last :=
  ho.elsewhere h hn names k (List.prefix_refl names) hk

/-- the last name is looked up in the parent, which the others find -/
theorem Finds.parent (h : t.Linked) {before : List String} {name : String} (hn : t.Finds id (before ++ [name]) last) :
    ∃ p, t.Finds id before p ∧ t.parentOf last = some p := by
  obtain ⟨p, hp, hl⟩ := finds_append.1 hn
  cases hl with
  | down _ child on =>
    cases on
    exact ⟨p, hp, (h.linked p last).2 (findChild_eq_some child).1⟩

theorem Finds.attached (h : t.Linked) {names : List String} (hn : t.Finds id names last)
    (hid : t.isAttached id = true) : t.isAttached last = true := by
  induction hn with
  | here => exact hid
  | down _ child _ ih => exact ih (attached_of_child h (findChild_eq_some child).1)

end Names

/-! ## Walks -/

section Walk

variable {t : Tree} {ext : External} {path : AbsolutePath} {id last : NodeId} {names walked : List String}

theorem walk_real_nodeId {name : String} {at_ : ExternalPath} {place : Place}
    (hw : t.walk ext path walked (.real name at_) names = .ok place) : place.nodeId? = none := by
  induction names generalizing walked name at_ with
  | nil =>
    cases hw
    rfl
  | cons next rest ih =>
    obtain ⟨place, hs, hrest⟩ := walk_cons_eq_ok.1 hw
    simp only [step, descend] at hs
    split at hs
    · cases hs
      exact ih hrest
    · split at hs
      · cases hs
      · split at hs <;> cases hs

/-- a step from a mount leaves the tree -/
theorem step_mount_eq_ok {m : MountNode} {name : String} {place : Place}
    (hs : t.step ext path walked name (.mount id m) = .ok place) : ∃ n at_, place = .real n at_ := by
  simp only [step] at hs
  split at hs
  · cases hs
  · simp only [descend] at hs
    split at hs
    · cases hs
      exact ⟨_, _, rfl⟩
    · split at hs
      · cases hs
      · split at hs <;> cases hs

theorem finds_of_walk {node : Node} {place : Place} (hn : t.node? id = some node)
    (hw : t.walk ext path walked (.ofNode id node) names = .ok place) (hp : place.nodeId? = some last) :
    t.Finds id names last ∧ ∃ n, t.node? last = some n ∧ place = .ofNode last n := by
  induction names generalizing walked id node with
  | nil =>
    cases hw
    cases node <;> cases hp <;> exact ⟨.here, _, hn, rfl⟩
  | cons name rest ih =>
    obtain ⟨next, hs, hrest⟩ := walk_cons_eq_ok.1 hw
    cases node with
    | directory dir =>
      simp only [Place.ofNode, step] at hs
      cases hc : t.child? id name with
      | none =>
        rw [hc] at hs
        cases hs
      | some found =>
        obtain ⟨c, n⟩ := found
        rw [hc] at hs
        cases hs
        obtain ⟨c', hfind, hnode⟩ := Option.bind_eq_some_iff.1 hc
        obtain ⟨n', hn', heq⟩ := Option.map_eq_some_iff.1 hnode
        cases heq
        obtain ⟨hon, hlast⟩ := ih hn' hrest
        exact ⟨.down hn hfind hon, hlast⟩
    | mount m =>
      obtain ⟨n, at_, rfl⟩ := step_mount_eq_ok hs
      rw [walk_real_nodeId hrest] at hp
      cases hp

/-- what the names find is where the walk ends, whatever the filesystems answer -/
theorem Finds.walk {node n : Node} (h : t.Finds id names last) (hn : t.node? id = some node)
    (hl : t.node? last = some n) (ext : External) (path : AbsolutePath) (walked : List String) :
    t.walk ext path walked (.ofNode id node) names = .ok (.ofNode last n) := by
  induction h generalizing walked node with
  | here =>
    rw [hn] at hl
    cases hl
    rfl
  | @down id c last d name rest dir child on ih =>
    rw [hn] at dir
    cases dir
    obtain ⟨nc, hnc⟩ := Option.isSome_iff_exists.1 (on.present (Option.isSome_of_eq_some hl))
    have hc : t.child? id name = some (c, nc) := by rw [child?, child, Option.bind_some, hnc]; rfl
    refine walk_cons_eq_ok.2 ⟨.ofNode c nc, ?_, ih hnc hl (walked ++ [name])⟩
    simp only [Place.ofNode, step, hc]

theorem finds_of_resolve {place : Place} (hr : t.resolve ext path = .ok place) (hp : place.nodeId? = some last) :
    t.Finds t.root path.names last ∧ ∃ n, t.node? last = some n ∧ place = .ofNode last n := by
  unfold resolve at hr
  split at hr
  · cases hr
  · next node hn => exact finds_of_walk hn hr hp

theorem Finds.resolve {n : Node} (h : t.Finds t.root path.names last) (hl : t.node? last = some n) (ext : External) :
    t.resolve ext path = .ok (.ofNode last n) := by
  obtain ⟨node, hn⟩ := Option.isSome_iff_exists.1 (h.present (Option.isSome_of_eq_some hl))
  rw [Tree.resolve, hn]
  exact h.walk hn hl ext path []

/-- the directory that a path leads to -/
theorem finds_directory {d : Directory} (hr : t.resolve ext path = .ok (.directory id d)) :
    t.Finds t.root path.names id ∧ t.node? id = some (.directory d) := by
  obtain ⟨hfinds, n, hn, hplace⟩ := finds_of_resolve hr rfl
  cases n with
  | directory dir =>
    cases hplace
    exact ⟨hfinds, hn⟩
  | mount m => cases hplace

/-- the mount that a path leads to -/
theorem finds_mount {m : MountNode} (hr : t.resolve ext path = .ok (.mount id m)) :
    t.Finds t.root path.names id ∧ t.node? id = some (.mount m) := by
  obtain ⟨hfinds, n, hn, hplace⟩ := finds_of_resolve hr rfl
  cases n with
  | directory dir => cases hplace
  | mount m' =>
    cases hplace
    exact ⟨hfinds, hn⟩

/-- a name that is not in the last directory is missing, whatever the filesystems answer -/
theorem Finds.missing {before : List String} {name : String} {d : Directory} (h : t.Finds t.root before last)
    (hl : t.node? last = some (.directory d)) (hfree : t.findChild last name = none)
    (hnames : path.names = before ++ [name]) (ext : External) : t.resolveOrMissing ext path = .ok none := by
  obtain ⟨node, hn⟩ := Option.isSome_iff_exists.1 (h.present (Option.isSome_of_eq_some hl))
  have hw : t.walk ext path [] (.ofNode t.root node) before = .ok (.directory last d) := h.walk hn hl ext path []
  have hnone : t.child? last name = none := by rw [child?, hfree]; rfl
  have hr : t.resolve ext path = .error (MountSpace.missing (before ++ [name])) := by
    rw [Tree.resolve, hn, hnames]
    simp only [walk_append, hw, Tree.walk, Tree.step, hnone, List.nil_append]
  rw [resolveOrMissing, hr]
  rfl

end Walk

/-! ## After a change -/

section Edits

variable {t u : Tree} {id last : NodeId} {names : List String}

/-- a look-up past vertices that are still directories and have the children found -/
theorem Finds.kept (h : t.Finds id names last) (keeps : NodeId → Prop)
    (past : ∀ before k, before <+: names → t.Finds id before k → keeps k)
    (node : ∀ k d, keeps k → t.node? k = some (.directory d) → ∃ d', u.node? k = some (.directory d'))
    (child : ∀ k c name, keeps k → keeps c → t.findChild k name = some c → u.findChild k name = some c) :
    u.Finds id names last := by
  induction h with
  | here => exact .here
  | @down id c last d name rest dir found on ih =>
    have hid : keeps id := past [] id List.nil_prefix .here
    have hc : keeps c := past [name] c ⟨rest, rfl⟩ (.down dir found .here)
    obtain ⟨d', hd'⟩ := node id d hid dir
    refine .down hd' (child id c name hid hc found) (ih fun before k hb hk => ?_)
    exact past (name :: before) k (List.cons_prefix_cons.2 ⟨rfl, hb⟩) (.down dir found hk)

theorem directory_of_face {k : NodeId} {d : Directory} (hf : u.face? k = t.face? k)
    (hk : t.node? k = some (.directory d)) : ∃ d', u.node? k = some (.directory d') := by
  have hface : u.face? k = some (Node.directory d).face := by rw [hf, face?, hk]; rfl
  obtain ⟨n, hn, heq⟩ := Option.map_eq_some_iff.1 hface
  cases n with
  | directory d' => exact ⟨d', hn⟩
  | mount m => cases heq

/-- with names apart, a child that keeps its parent and its name is still found -/
theorem Apart.findChild_of (ha : u.Apart) {k c : NodeId} {name : String} (hc : t.findChild k name = some c)
    (hmem : c ∈ u.childrenOf k) (hname : u.name? c = t.name? c) : u.findChild k name = some c := by
  obtain ⟨-, own, hown, hfold⟩ := findChild_eq_some hc
  exact ha.findChild hmem (by rw [key?, hname, hown, ← hfold]; rfl)

theorem Grown.findChild_of {p : NodeId} {new : String} (hu : t.Grown p new u) (h : t.Linked) {k c : NodeId}
    {name : String} (hc : t.findChild k name = some c) : u.findChild k name = some c := by
  have named : ∀ x ∈ t.childrenOf k, u.isNamed name x = t.isNamed name x := by
    intro x hx
    have hne : x ≠ t.nextId := Nat.ne_of_lt (h.lt_nextId (attached_of_child h hx))
    rw [Bool.eq_iff_iff, isNamed_iff, isNamed_iff, key?, key?, hu.name?, if_neg hne]
  have old : (t.childrenOf k).find? (u.isNamed name) = some c := (List.find?_congr named).trans hc
  rw [findChild, hu.children]
  split
  · next hk => rw [List.find?_append, ← hk, old, Option.some_or]
  · exact old

theorem Finds.grown {p : NodeId} {new : String} (hu : t.Grown p new u) (hl : t.Linked) (h : t.Finds id names last) :
    u.Finds id names last := by
  refine h.kept (fun _ => True) (fun _ _ _ _ => trivial) (fun k d _ hk => ?_) fun k c name _ _ hc =>
    hu.findChild_of hl hc
  refine directory_of_face ?_ hk
  rw [hu.face, if_neg (Nat.ne_of_lt (lt_nextId_of_get? (get?_of_node? hk)))]

/-- the new directory is found, at the end of the way to its parent -/
theorem Grown.finds {p : NodeId} {name : String} {before : List String} {d : Directory} (hu : t.Grown p name u)
    (hl : t.Linked) (h : t.Finds t.root before p) (hp : t.node? p = some (.directory d)) :
    u.Finds u.root (before ++ [name]) t.nextId ∧ ∃ d', u.node? t.nextId = some (.directory d') := by
  have named : u.isNamed name t.nextId = true := by
    rw [isNamed_iff, key?, hu.name?, if_pos rfl]
    rfl
  have old : (t.childrenOf p).find? (u.isNamed name) = none := by
    rw [List.find?_eq_none]
    intro x hx
    have hne : x ≠ t.nextId := Nat.ne_of_lt (hl.lt_nextId (attached_of_child hl hx))
    rw [isNamed_iff, key?, hu.name?, if_neg hne]
    exact findChild_eq_none.1 hu.free x hx
  have found : u.findChild p name = some t.nextId := by
    rw [findChild, hu.children, if_pos rfl, List.find?_append, old, List.find?_singleton, named]
    rfl
  have hpn : p ≠ t.nextId := Nat.ne_of_lt (hl.lt_nextId hu.above)
  obtain ⟨d', hd'⟩ := directory_of_face (by rw [hu.face, if_neg hpn]) hp
  constructor
  · rw [hu.root]
    exact (h.grown hu hl).snoc hd' found
  · obtain ⟨n, hn, heq⟩ := Option.map_eq_some_iff.1 ((hu.face t.nextId).trans (if_pos rfl))
    cases n with
    | directory d => exact ⟨d, hn⟩
    | mount m => cases heq

theorem Grown.bare {p : NodeId} {name : String} (hu : t.Grown p name u) (hl : t.Linked) :
    u.childrenOf t.nextId = [] := by
  have hne : t.nextId ≠ p := fun hp => Nat.lt_irrefl _ (hl.lt_nextId (hp ▸ hu.above))
  rw [hu.children, if_neg hne, childrenOf_nextId]

variable {x : NodeId} (past : ∀ before k, before <+: names → t.Finds id before k → k ≠ x) (ha : u.Apart)
include past ha

theorem Finds.pruned (hu : t.Pruned x u) (h : t.Finds id names last) : u.Finds id names last := by
  refine h.kept (· ≠ x) past (fun k d hk hd => directory_of_face (by rw [hu.face, if_neg hk]) hd) ?_
  intro k c name hk hcx hc
  refine ha.findChild_of hc ?_ (by rw [hu.name?, if_neg hcx])
  rw [hu.children, List.mem_filter, decide_eq_true_eq]
  exact ⟨(findChild_eq_some hc).1, hcx⟩

theorem Finds.renamed {new : String} (hu : t.Renamed x new u) (hx : (t.get? x).isSome) (h : t.Finds id names last) :
    u.Finds id names last := by
  refine h.kept (· ≠ x) past (fun k d hk hd => directory_of_face (by rw [hu.face, if_neg hk]) hd) ?_
  intro k c name hk hcx hc
  refine ha.findChild_of hc ?_ (by rw [hu.name? hx, if_neg hcx])
  rw [hu.children]
  exact (findChild_eq_some hc).1

/-- a vertex swapped in for another one stands in no way but theirs -/
theorem Finds.swapped {r : NodeId} (hu : t.Swapped x r u) (hl : t.Linked)
    (hface : ∀ k, k ≠ x → k ≠ r → u.face? k = t.face? k) (hid : t.isAttached id = true) (h : t.Finds id names last) :
    u.Finds id names last := by
  have hr : ∀ k, t.isAttached k = true → k ≠ r := by
    rintro k hk rfl
    rw [hu.waited] at hk
    cases hk
  have child : ∀ {k name c}, t.findChild k name = some c → k ≠ x → c ≠ x → c ∈ u.childrenOf k := by
    intro k name c hc hk hcx
    have hmem := (findChild_eq_some hc).1
    have hput := hu.child hl hmem
    rwa [put, put, if_neg hcx, if_neg hk] at hput
  refine h.kept (fun k => k ≠ x ∧ t.isAttached k = true)
    (fun before k hb hk => ⟨past before k hb hk, hk.attached hl hid⟩) ?_ ?_
  · exact fun k d hk hd => directory_of_face (hface k hk.1 (hr k hk.2)) hd
  · intro k c name hk hcx hc
    refine ha.findChild_of hc (child hc hk.1 hcx.1) ?_
    rw [name?_eq_face, name?_eq_face, hface c hcx.1 (hr c hcx.2)]

end Edits

end Tree

end MountSpace

/-
Where a path leads in an arena and in its outline. `resolve_collapse` says that both walks end at the same spot or
refuse in the same words, for paths of valid names: the check at the boundary of a mount, which the outline does without, never
fails for them.

A walk that ends in the tree follows the layout (`follow_of_resolve`), and where the layout leads the walk goes
(`resolve_of_follow`). Names equal apart from case are followed alike (`follow_congr`).
-/
import MountSpace.Proofs.Outline.Collapse
import MountSpace.Proofs.Path.Contained

namespace MountSpace

theorem descend_eq (ext : External) (path : AbsolutePath) (walked : List String) (name : String)
    (candidate : ExternalPath) : descend ext path walked name candidate =
      match (ext candidate.fs).getattr candidate.path with
      | .ok _ => .ok (.real name candidate)
      | .error e => .error (Outline.refusal path (walked ++ [name]) e) := by
  unfold descend Outline.refusal
  cases (ext candidate.fs).getattr candidate.path with
  | ok a => rfl
  | error e =>
    simp only
    split
    · rfl
    · cases e <;> rfl

namespace Tree

/-- the spot of a place, with the outline from there downwards -/
def spotOf (t : Tree) : Place → Spot
  | .directory id _ => .directory (t.outlineAt id)
  | .mount id m => .mount (t.outlineAt id) m.record.source
  | .real name at_ => .real name at_

theorem labelOf_stack_directory {t : Tree} {id : NodeId} {d : Directory} (h : t.node? id = some (.directory d)) :
    t.stackOf id = [] :=
  stackOf_eq_nil (by rw [h]; rfl)

theorem Stacked.stackOf_mount {t : Tree} (h : t.Stacked) {id : NodeId} {m : MountNode}
    (hm : t.node? id = some (.mount m)) : t.stackOf id = m.record.source :: t.stackOf m.shadowed :=
  stackOf_eq_cons (by rw [hm]; rfl) (h.older id m hm)

theorem Stacked.stackOf_eq_nil_iff {t : Tree} (h : t.Stacked) {id : NodeId} {n : Node} (hn : t.node? id = some n) :
    t.stackOf id = [] ↔ ∃ d, n = .directory d := by
  cases n with
  | directory d => simp [labelOf_stack_directory hn]
  | mount m => simp [h.stackOf_mount hn]

section Walk

variable {t : Tree} (h : t.Stacked) {l : Rose NodeId} (hl : t.Lays l) (ha : t.isAttached l.label = true)
include h hl ha

theorem map_labelOf_eq : l.map t.labelOf = t.outlineAt l.label := by
  rw [outlineAt, ← h.toLinked.eq_layoutAt hl ha]

theorem attached_child {c : Rose NodeId} (hc : c ∈ l.children) : t.Lays c ∧ t.isAttached c.label = true := by
  cases l with
  | node a cs =>
    obtain ⟨hchildren, hcs⟩ := lays_node.1 hl
    have hm : c.label ∈ t.childrenOf a := by rw [hchildren]; exact List.mem_map_of_mem hc
    exact ⟨hcs c hc, (t.isAttached_iff _).2 (.inr ⟨a, (h.linked a c.label).2 hm⟩)⟩

/-- the children of a vertex and those of the layout, searched by name -/
theorem findChild_eq_find? (name : String) : t.findChild l.label name =
    (l.children.find? fun c => Text.sameName (t.labelOf c.label).name name).map Rose.label := by
  have hchildren : t.childrenOf l.label = l.children.map Rose.label := hl l l.self_mem_subtrees
  have hnames : ∀ c ∈ l.children, (t.isNamed name ∘ Rose.label) c = Text.sameName (t.labelOf c.label).name name := by
    intro c hc
    obtain ⟨v, hv⟩ := Option.isSome_iff_exists.1 (h.present (attached_child h hl ha hc).2)
    simp [isNamed, labelOf, node?, hv]
  rw [findChild, hchildren, List.find?_map, List.find?_congr hnames]

theorem child?_eq_find? (name : String) : t.child? l.label name =
    (l.children.find? fun c => Text.sameName (t.labelOf c.label).name name).bind fun c =>
      (t.node? c.label).map fun node => (c.label, node) := by
  rw [child?, findChild_eq_find? h hl ha]
  cases l.children.find? fun c => Text.sameName (t.labelOf c.label).name name <;> rfl

/-- a child found by name, with its node -/
theorem child?_of_find? {name : String} {c : Rose NodeId}
    (hc : l.children.find? (fun c => Text.sameName (t.labelOf c.label).name name) = some c) :
    ∃ n, t.node? c.label = some n ∧ t.child? l.label name = some (c.label, n) := by
  have hca := (attached_child h hl ha (List.mem_of_find?_eq_some hc)).2
  obtain ⟨n, hn⟩ := Option.isSome_iff_exists.1 ((t.node?_isSome _).trans (h.present hca))
  exact ⟨n, hn, by rw [child?_eq_find? h hl ha, hc, Option.bind_some, hn]; rfl⟩

end Walk

theorem walk_real (t : Tree) (ext : External) (path : AbsolutePath) (walked : List String) (name : String)
    (at_ : ExternalPath) (names : List String) :
    (t.walk ext path walked (.real name at_) names).map t.spotOf = Outline.outside ext path walked at_ name names := by
  induction names generalizing walked name at_ with
  | nil => rfl
  | cons next rest ih =>
    rw [walk, Outline.outside, step, descend_eq]
    simp only
    cases (ext at_.fs).getattr (at_.path.joinName next) with
    | error e => rfl
    | ok a => exact ih ..

section Resolve

variable {t : Tree} (h : t.Stacked)
include h

/-- the walk down the tree is the walk down the outline -/
theorem walk_map_spotOf (ext : External) (path : AbsolutePath) {names : List String}
    (hv : ∀ n ∈ names, nameFault? n = none) {l : Rose NodeId} (hl : t.Lays l) (ha : t.isAttached l.label = true)
    {node : Node} (hn : t.node? l.label = some node) (walked : List String) :
    (t.walk ext path walked (.ofNode l.label node) names).map t.spotOf =
      Outline.resolve ext path walked names (l.map t.labelOf) := by
  induction names generalizing l node walked with
  | nil =>
    have hlabel : (l.map t.labelOf).label.stack = t.stackOf l.label := by rw [Rose.label_map]; rfl
    rw [walk, Outline.resolve, Outline.spot, hlabel]
    cases node with
    | directory d =>
      rw [labelOf_stack_directory hn, map_labelOf_eq h hl ha]
      rfl
    | mount m =>
      rw [h.stackOf_mount hn, map_labelOf_eq h hl ha]
      rfl
  | cons name rest ih =>
    rw [List.forall_mem_cons] at hv
    have hlabel : (l.map t.labelOf).label = t.labelOf l.label := Rose.label_map _ _
    cases node with
    | directory d =>
      have hfind : (l.map t.labelOf).children.find? (Outline.isNamed name) =
          (l.children.find? fun c => Text.sameName (t.labelOf c.label).name name).map (Rose.map t.labelOf) := by
        rw [Rose.children_map, List.find?_map]
        refine congrArg _ (List.find?_congr fun c _ => ?_)
        rw [Function.comp_apply, Outline.isNamed, Rose.label_map]
      have hstack : (t.labelOf l.label).stack = [] := labelOf_stack_directory hn
      rw [walk, Outline.resolve, hlabel, hstack, hfind, Place.ofNode, step]
      simp only
      cases hc : l.children.find? fun c => Text.sameName (t.labelOf c.label).name name with
      | none => rw [child?_eq_find? h hl ha, hc]; rfl
      | some c =>
        obtain ⟨n, hcn, hchild⟩ := child?_of_find? h hl ha hc
        obtain ⟨hcl, hca⟩ := attached_child h hl ha (List.mem_of_find?_eq_some hc)
        rw [hchild]
        exact ih hv.2 hcl hca hcn _
    | mount m =>
      have hstack : (t.labelOf l.label).stack = m.record.source :: t.stackOf m.shadowed := h.stackOf_mount hn
      rw [walk, Outline.resolve, hlabel, hstack, Place.ofNode, step]
      simp only
      rw [FsPath.containedJoin_of_name _ hv.1, Outline.outside]
      simp only
      rw [descend_eq]
      simp only
      cases (ext m.record.source.fs).getattr (m.record.source.path.joinName name) with
      | error e => rfl
      | ok a => exact walk_real ..

/-- a walk that ends in the tree has followed the layout -/
theorem follow_of_walk {ext : External} {path : AbsolutePath} {names : List String} {l : Rose NodeId} (hl : t.Lays l)
    (ha : t.isAttached l.label = true) {node : Node} (hn : t.node? l.label = some node) {walked : List String}
    {place : Place} (hw : t.walk ext path walked (.ofNode l.label node) names = .ok place) {id : NodeId}
    (hid : place.nodeId? = some id) :
    ∃ s n, t.follow names l = some s ∧ s.label = id ∧ t.node? id = some n ∧ place = .ofNode id n := by
  have outer : ∀ {names walked name at_}, t.walk ext path walked (.real name at_) names ≠ .ok place := by
    intro names
    induction names with
    | nil =>
      intro walked name at_ hw
      cases hw
      cases hid
    | cons next rest ih =>
      intro walked name at_ hw
      rw [walk, step, descend_eq] at hw
      cases hg : (ext at_.fs).getattr (at_.path.joinName next) with
      | error e => simp only [hg] at hw; cases hw
      | ok a => simp only [hg] at hw; exact ih hw
  induction names generalizing l node walked with
  | nil =>
    rw [walk] at hw
    cases hw
    have hlid : l.label = id := by cases node <;> exact Option.some.inj hid
    exact ⟨l, node, rfl, hlid, hlid ▸ hn, hlid ▸ rfl⟩
  | cons name rest ih =>
    rw [walk] at hw
    cases node with
    | directory d =>
      rw [Place.ofNode, step] at hw
      cases hc : l.children.find? fun c => Text.sameName (t.labelOf c.label).name name with
      | none => rw [child?_eq_find? h hl ha, hc] at hw; cases hw
      | some c =>
        obtain ⟨n, hcn, hchild⟩ := child?_of_find? h hl ha hc
        obtain ⟨hcl, hca⟩ := attached_child h hl ha (List.mem_of_find?_eq_some hc)
        rw [hchild] at hw
        obtain ⟨s, n', hs, hrest⟩ := ih hcl hca hcn hw
        refine ⟨s, n', ?_, hrest⟩
        rw [follow, if_pos (labelOf_stack_directory hn), hc]
        exact hs
    | mount m =>
      rw [Place.ofNode, step] at hw
      cases hj : m.record.source.path.containedJoin name with
      | none => simp only [hj] at hw; cases hw
      | some candidate =>
        simp only [hj] at hw
        rw [descend_eq] at hw
        simp only at hw
        cases hg : (ext m.record.source.fs).getattr candidate with
        | error e => simp only [hg] at hw; cases hw
        | ok a => simp only [hg] at hw; exact absurd hw outer

/-- where the layout leads, the walk goes -/
theorem walk_of_follow (ext : External) (path : AbsolutePath) {names : List String} {l s : Rose NodeId} (hl : t.Lays l)
    (ha : t.isAttached l.label = true) {node : Node} (hn : t.node? l.label = some node) (walked : List String)
    (hs : t.follow names l = some s) :
    ∃ n, t.node? s.label = some n ∧ t.walk ext path walked (.ofNode l.label node) names = .ok (.ofNode s.label n) := by
  induction names generalizing l node walked with
  | nil => cases hs; exact ⟨node, hn, rfl⟩
  | cons name rest ih =>
    obtain ⟨hstack, c, hc, hcs⟩ := follow_cons_eq_some hs
    obtain ⟨d, rfl⟩ := (h.stackOf_eq_nil_iff hn).1 hstack
    obtain ⟨n, hcn, hchild⟩ := child?_of_find? h hl ha hc
    obtain ⟨hcl, hca⟩ := attached_child h hl ha (List.mem_of_find?_eq_some hc)
    rw [walk, Place.ofNode, step]
    simp only [hchild]
    exact ih hcl hca hcn _ hcs

/-- a path is resolved by the walk from the top of the layout -/
theorem resolve_eq_walk (ext : External) (path : AbsolutePath) :
    ∃ node, t.node? t.layout.label = some node ∧
      t.resolve ext path = t.walk ext path [] (.ofNode t.layout.label node) path.names := by
  obtain ⟨node, hn⟩ := Option.isSome_iff_exists.1 ((t.node?_isSome _).trans h.rootPresent)
  rw [label_layout]
  exact ⟨node, hn, by rw [resolve, hn]⟩

/-- **A path leads to the same spot in the arena and in its outline**, and is refused in the same words. -/
theorem resolve_collapse (ext : External) {path : AbsolutePath} (hv : checkNames path.names = .ok ()) :
    (t.resolve ext path).map t.spotOf = Outline.resolve ext path [] path.names t.collapse := by
  obtain ⟨node, hn, hr⟩ := resolve_eq_walk h ext path
  rw [hr]
  exact walk_map_spotOf h ext path (checkNames_eq_ok.1 hv) h.lays_layout (attached_layout t) hn []

theorem follow_of_resolve {ext : External} {path : AbsolutePath} {place : Place}
    (hr : t.resolve ext path = .ok place) {id : NodeId} (hid : place.nodeId? = some id) :
    ∃ s n, t.follow path.names t.layout = some s ∧ s.label = id ∧ t.node? id = some n ∧ place = .ofNode id n := by
  obtain ⟨node, hn, hw⟩ := resolve_eq_walk h ext path
  exact follow_of_walk h h.lays_layout (attached_layout t) hn (hw ▸ hr) hid

/-- a walk that ends at a directory follows the layout to it -/
theorem directory_of_resolve {ext : External} {path : AbsolutePath} {id : NodeId} {dir : Directory}
    (hr : t.resolve ext path = .ok (.directory id dir)) :
    ∃ s, t.follow path.names t.layout = some s ∧ s.label = id ∧ t.node? id = some (.directory dir) := by
  obtain ⟨s, n, hs, hlabel, hn, hplace⟩ := follow_of_resolve h hr rfl
  cases n with
  | directory d =>
    cases hplace
    exact ⟨s, hs, hlabel, hn⟩
  | mount m => cases hplace

/-- a walk that ends at a mount follows the layout to it -/
theorem mount_of_resolve {ext : External} {path : AbsolutePath} {id : NodeId} {m : MountNode}
    (hr : t.resolve ext path = .ok (.mount id m)) :
    ∃ s, t.follow path.names t.layout = some s ∧ s.label = id ∧ t.node? id = some (.mount m) := by
  obtain ⟨s, n, hs, hlabel, hn, hplace⟩ := follow_of_resolve h hr rfl
  cases n with
  | directory d => cases hplace
  | mount m' =>
    cases hplace
    exact ⟨s, hs, hlabel, hn⟩

theorem resolve_of_follow (ext : External) {path : AbsolutePath} {s : Rose NodeId}
    (hs : t.follow path.names t.layout = some s) :
    ∃ n, t.node? s.label = some n ∧ t.resolve ext path = .ok (.ofNode s.label n) := by
  obtain ⟨node, hn, hw⟩ := resolve_eq_walk h ext path
  rw [hw]
  exact walk_of_follow h ext path h.lays_layout (attached_layout t) hn [] hs

end Resolve

/-- names equal apart from case are followed alike -/
theorem follow_congr (t : Tree) {names others : List String} (hf : foldNames names = foldNames others)
    (l : Rose NodeId) : t.follow names l = t.follow others l := by
  induction names generalizing others l with
  | nil =>
    cases others with
    | nil => rfl
    | cons other rest => cases hf
  | cons name rest ih =>
    cases others with
    | nil => cases hf
    | cons other others =>
      obtain ⟨hname, hrest⟩ := List.cons.inj hf
      have hsame : ∀ s, Text.sameName s name = Text.sameName s other := fun s => by
        rw [Text.sameName, Text.sameName, hname]
      rw [follow, follow]
      simp only [hsame]
      split
      · exact congrArg _ (funext fun c => ih hrest c)
      · rfl

/-- the end of a path bears its last name -/
theorem follow_last_name {t : Tree} {names : List String} {name : String} {l s : Rose NodeId}
    (h : t.follow (names ++ [name]) l = some s) : Text.sameName (t.labelOf s.label).name name = true := by
  rw [follow_append] at h
  obtain ⟨p, -, hp⟩ := Option.bind_eq_some_iff.1 h
  obtain ⟨-, c, hc, hcs⟩ := follow_cons_eq_some hp
  cases hcs
  have hnamed := List.find?_some hc
  exact hnamed

/-- in one directory, names equal apart from case lead to the same vertex and others to another -/
theorem follow_sibling {t : Tree} {names others : List String} {a b : String} {l s : Rose NodeId}
    (hs : t.follow (names ++ [a]) l = some s) (hf : foldNames names = foldNames others) :
    (Text.sameName a b = true → t.follow (others ++ [b]) l = some s) ∧
      (Text.sameName a b = false → ∀ s', t.follow (others ++ [b]) l = some s' → s'.label ≠ s.label) := by
  constructor
  · intro hab
    have hfold : foldNames (others ++ [b]) = foldNames (names ++ [a]) := by
      have hab' : Text.fold a = Text.fold b := eq_of_beq hab
      rw [foldNames, foldNames, List.map_append, List.map_append, List.map_singleton, List.map_singleton, hab']
      exact congrArg (· ++ _) hf.symm
    rw [follow_congr t hfold]
    exact hs
  · intro hab s' hs' hlabel
    have ha := eq_of_beq (follow_last_name hs)
    have hb := eq_of_beq (follow_last_name hs')
    rw [hlabel, ha] at hb
    rw [Text.sameName, hb, beq_self_eq_true] at hab
    cases hab

section OrMissing

variable {t : Tree} {ext : External} {path : AbsolutePath}

theorem resolveOrMissing_eq_none :
    t.resolveOrMissing ext path = .ok none ↔ ∃ what, t.resolve ext path = .error (.notFound what) := by
  rw [resolveOrMissing]
  cases t.resolve ext path with
  | ok place => simp
  | error e => cases e <;> simp

theorem resolveOrMissing_eq_some {place : Place} :
    t.resolveOrMissing ext path = .ok (some place) ↔ t.resolve ext path = .ok place := by
  rw [resolveOrMissing]
  cases t.resolve ext path with
  | ok place => simp
  | error e => cases e <;> simp

theorem resolveOrMissing_eq_error {e : FsError} : t.resolveOrMissing ext path = .error e ↔
    t.resolve ext path = .error e ∧ ∀ what, e ≠ .notFound what := by
  rw [resolveOrMissing]
  cases t.resolve ext path with
  | ok place => simp
  | error told => cases told <;> simp +contextual [eq_comm]

end OrMissing

end Tree

end MountSpace

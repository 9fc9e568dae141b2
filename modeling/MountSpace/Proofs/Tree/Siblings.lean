/-
The names below one vertex. Names are looked up by their folded form, the key of a vertex, and `Apart` says that the
children of a vertex have different keys. A change that adds a name or gives another asks whether the name is taken, and
a swap brings a vertex to a place where its own name stood, since a mount bears the name of what it covers. So all five
changes keep names apart, for children in view and for children under a mount alike.
-/
import MountSpace.Proofs.Outline.Collapse
import MountSpace.Proofs.Tree.Edits

namespace MountSpace.Tree

section Children

variable {t : Tree} (h : t.Linked)
include h

theorem attached_of_child {p c : NodeId} (hc : c ∈ t.childrenOf p) : t.isAttached c = true :=
  (t.isAttached_iff c).2 (.inr ⟨p, (h.linked p c).2 hc⟩)

theorem root_not_child {p : NodeId} : t.root ∉ t.childrenOf p := by
  intro hc
  have hp := (h.linked p t.root).2 hc
  rw [h.rootFree] at hp
  cases hp

theorem parent_unique {p q c : NodeId} (hp : c ∈ t.childrenOf p) (hq : c ∈ t.childrenOf q) : p = q := by
  have hsame := (h.linked q c).2 hq
  rw [(h.linked p c).2 hp] at hsame
  exact Option.some.inj hsame

end Children

/-- the name of a vertex apart from case, the key it is looked up by -/
def key? (t : Tree) (id : NodeId) : Option (List Char) := (t.name? id).map Text.fold

/-- no two children of one vertex have the same name, apart from case -/
def Apart (t : Tree) : Prop := ∀ p a b, a ∈ t.childrenOf p → b ∈ t.childrenOf p → t.key? a = t.key? b → a = b

/-- nothing is mounted over the root, and every other vertex, attached or not, has a valid name -/
structure Named (t : Tree) : Prop where
  rootBare : t.actAt t.root = none
  valid : ∀ k name, k ≠ t.root → t.name? k = some name → nameFault? name = none

/-- names stay valid if every new one is -/
theorem Named.of_names {t u : Tree} (h : t.Named) (hroot : u.root = t.root) (hbare : u.actAt t.root = none)
    (hnames : ∀ k name, u.name? k = some name → t.name? k = some name ∨ nameFault? name = none) : u.Named := by
  refine ⟨by rw [hroot, hbare], fun k name hk hname => ?_⟩
  rw [hroot] at hk
  rcases hnames k name hname with hold | hvalid
  · exact h.valid k name hk hold
  · exact hvalid

theorem isNamed_iff {t : Tree} {name : String} {id : NodeId} :
    t.isNamed name id = true ↔ t.key? id = some (Text.fold name) := by
  unfold isNamed key? name? node?
  cases t.get? id with
  | none => simp
  | some v => simp [Text.sameName]

theorem findChild_eq_none {t : Tree} {p : NodeId} {name : String} :
    t.findChild p name = none ↔ ∀ c ∈ t.childrenOf p, t.key? c ≠ some (Text.fold name) := by
  simp only [findChild, List.find?_eq_none, isNamed_iff, ne_eq]

/-- with names apart, a name leads to the one child that bears it -/
theorem Apart.findChild {t : Tree} (h : t.Apart) {p c : NodeId} (hc : c ∈ t.childrenOf p) {name : String}
    (hk : t.key? c = some (Text.fold name)) : t.findChild p name = some c := by
  cases hf : t.findChild p name with
  | none => exact absurd hk (findChild_eq_none.1 hf c hc)
  | some d =>
    have hd : d ∈ t.childrenOf p := List.mem_of_find?_eq_some hf
    have hdk : t.key? d = some (Text.fold name) := isNamed_iff.1 (List.find?_some hf)
    rw [h p d c hd hc (hdk.trans hk.symm)]

section Edits

variable {t u : Tree}

/-! ## One directory more, less, or under another name -/

theorem apart_grown (h : t.Linked) (ha : t.Apart) {p : NodeId} {name : String} (hu : t.Grown p name u) : u.Apart := by
  have hkey : ∀ k, u.key? k = if k = t.nextId then some (Text.fold name) else t.key? k := by
    intro k
    rw [key?, key?, hu.name?]
    split
    · rfl
    · rfl
  have hold : ∀ q c, c ∈ t.childrenOf q → c ≠ t.nextId := by
    intro q c hc
    exact Nat.ne_of_lt (h.lt_nextId (attached_of_child h hc))
  have hfree := findChild_eq_none.1 hu.free
  intro q a b hqa hqb hab
  rw [hkey, hkey] at hab
  rw [hu.children] at hqa hqb
  by_cases hq : q = p
  · subst hq
    rw [if_pos rfl, List.mem_append, List.mem_singleton] at hqa hqb
    rcases hqa with hqa | rfl
    · rcases hqb with hqb | rfl
      · rw [if_neg (hold q a hqa), if_neg (hold q b hqb)] at hab
        exact ha q a b hqa hqb hab
      · rw [if_neg (hold q a hqa), if_pos rfl] at hab
        exact absurd hab (hfree a hqa)
    · rcases hqb with hqb | rfl
      · rw [if_pos rfl, if_neg (hold q b hqb)] at hab
        exact absurd hab.symm (hfree b hqb)
      · rfl
  · rw [if_neg hq] at hqa hqb
    rw [if_neg (hold q a hqa), if_neg (hold q b hqb)] at hab
    exact ha q a b hqa hqb hab

theorem apart_pruned (ha : t.Apart) {id : NodeId} (hu : t.Pruned id u) : u.Apart := by
  have hkey : ∀ k, k ≠ id → u.key? k = t.key? k := by
    intro k hk
    rw [key?, key?, hu.name?, if_neg hk]
  intro q a b hqa hqb hab
  rw [hu.children, List.mem_filter, decide_eq_true_eq] at hqa hqb
  rw [hkey a hqa.2, hkey b hqb.2] at hab
  exact ha q a b hqa.1 hqb.1 hab

/-- a name may be given if none but the vertex itself has it -/
theorem apart_renamed (h : t.Linked) (ha : t.Apart) {p id : NodeId} {name : String} (hu : t.Renamed id name u)
    (hp : id ∈ t.childrenOf p) (hfree : ∀ c, t.findChild p name = some c → c = id) : u.Apart := by
  have hpar := (h.linked p id).2 hp
  have hkey : ∀ k, u.key? k = if k = id then some (Text.fold name) else t.key? k := by
    intro k
    rw [key?, key?, hu.name? (get?_isSome_of_parentOf hpar)]
    split
    · rfl
    · rfl
  -- beside the vertex nobody has the new name
  have hother : ∀ q c, id ∈ t.childrenOf q → c ∈ t.childrenOf q → t.key? c = some (Text.fold name) → c = id := by
    intro q c hid hc hk
    cases parent_unique h hid hp
    exact hfree c (ha.findChild hc hk)
  intro q a b hqa hqb hab
  rw [hkey, hkey] at hab
  rw [hu.children] at hqa hqb
  by_cases hai : a = id
  · by_cases hbi : b = id
    · rw [hai, hbi]
    · rw [if_pos hai, if_neg hbi] at hab
      rw [hai, hother q b (hai ▸ hqa) hqb hab.symm]
  · by_cases hbi : b = id
    · rw [if_neg hai, if_pos hbi] at hab
      rw [hbi, hother q a (hbi ▸ hqb) hqa hab]
    · rw [if_neg hai, if_neg hbi] at hab
      exact ha q a b hqa hqb hab

/-! ## One vertex in the place of another -/

/-- the places where a vertex has been put bear the names they bore -/
def KeepsNames (t : Tree) (e r : NodeId) (u : Tree) : Prop :=
  ∀ k, t.isAttached k = true → u.name? (put e r k) = t.name? k

/-- a vertex swapped in stands among the children where the other stood -/
theorem Swapped.child (h : t.Linked) {e r : NodeId} (hu : t.Swapped e r u) {p c : NodeId} (hc : c ∈ t.childrenOf p) :
    put e r c ∈ u.childrenOf (put e r p) := by
  have hre : r ≠ e := by
    intro hre
    have hw := hu.waited
    rw [hre, hu.stood] at hw
    cases hw
  rw [hu.children]
  by_cases hpe : p = e
  · have hce : c ≠ e := by
      intro hce
      exact h.ne_parent e ((h.linked e e).2 (by rw [hpe, hce] at hc; exact hc))
    rw [put, put, if_pos hpe, if_neg hre, if_pos rfl, if_neg hce, ← hpe]
    exact hc
  · have hpr : p ≠ r := by
      intro hpr
      rw [hpr, h.bare r hu.waited] at hc
      cases hc
    have hput : put e r p = p := if_neg hpe
    rw [hput, if_neg hpe, if_neg hpr]
    exact List.mem_map_of_mem hc

/-- every child after a swap stood there before, itself or in the other's name -/
theorem Swapped.of_child (h : t.Linked) {e r : NodeId} (hu : t.Swapped e r u) {q d : NodeId}
    (hd : d ∈ u.childrenOf q) : ∃ p c, c ∈ t.childrenOf p ∧ q = put e r p ∧ d = put e r c := by
  rw [hu.children] at hd
  by_cases hqe : q = e
  · rw [if_pos hqe] at hd
    cases hd
  rw [if_neg hqe] at hd
  by_cases hqr : q = r
  · rw [if_pos hqr] at hd
    have hde : d ≠ e := by
      intro hde
      exact h.ne_parent e ((h.linked e e).2 (hde ▸ hd))
    exact ⟨e, d, hd, by rw [hqr, put, if_pos rfl], by rw [put, if_neg hde]⟩
  · rw [if_neg hqr] at hd
    obtain ⟨c, hc, hcd⟩ := List.mem_map.1 hd
    exact ⟨q, c, hc, by rw [put, if_neg hqe], hcd.symm⟩

theorem Swapped.put_injective {e r a b : NodeId} (hu : t.Swapped e r u) (ha : t.isAttached a = true)
    (hb : t.isAttached b = true) (hab : put e r a = put e r b) : a = b := by
  have hr : ∀ k, t.isAttached k = true → k ≠ r := by
    intro k hk hkr
    have hw := hu.waited
    rw [← hkr, hk] at hw
    cases hw
  unfold put at hab
  split_ifs at hab with hae hbe hbe
  · rw [hae, hbe]
  · exact absurd hab.symm (hr b hb)
  · exact absurd hab (hr a ha)
  · exact hab

theorem apart_swapped (h : t.Linked) (ha : t.Apart) {e r : NodeId} (hu : t.Swapped e r u) (hn : t.KeepsNames e r u) :
    u.Apart := by
  have hkey : ∀ {p c}, c ∈ t.childrenOf p → u.key? (put e r c) = t.key? c := by
    intro p c hc
    rw [key?, key?, hn c (attached_of_child h hc)]
  intro q a b hqa hqb hab
  obtain ⟨p, c, hc, hqp, rfl⟩ := hu.of_child h hqa
  obtain ⟨p', d, hd, hqp', rfl⟩ := hu.of_child h hqb
  have hpp : p = p' := hu.put_injective (h.attached_parent hc) (h.attached_parent hd) (hqp.symm.trans hqp')
  rw [hkey hc, hkey hd] at hab
  rw [ha p c d hc (hpp ▸ hd) hab]

/-- a mount bears the name of the vertex it comes to cover -/
theorem Mounted.keepsNames (h : t.Linked) {e : NodeId} {m : MountNode} (hu : t.Mounted e m u)
    (hm : t.name? e = some m.name) : t.KeepsNames e t.nextId u := by
  intro k hk
  by_cases hke : k = e
  · rw [put, if_pos hke, hu.name?, if_pos rfl, hke, hm]
  · rw [put, if_neg hke, hu.name?, if_neg (Nat.ne_of_lt (h.lt_nextId hk))]

/-- an uncovered vertex bears the name of the mount that covered it -/
theorem Unmounted.keepsNames (h : t.Stacked) {id : NodeId} {m : MountNode} (hu : t.Unmounted id m u) :
    t.KeepsNames id m.shadowed u := by
  have hne : m.shadowed ≠ id := Nat.ne_of_lt (h.older id m hu.mount)
  intro k hk
  by_cases hke : k = id
  · rw [put, if_pos hke, hu.name?, if_neg hne, hke, Tree.name?, h.alike id m hu.mount, Tree.name?, hu.mount]
    rfl
  · rw [put, if_neg hke, hu.name?, if_neg hke]

end Edits

end MountSpace.Tree

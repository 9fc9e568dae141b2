/-
The shape of an arena as a tree of numbers. `layout` follows the lists of children from the root; it is cut off at a
depth of as many vertices as there ever were, and under `Linked` that cuts nothing off: the way up from a vertex passes
each vertex once, so it is shorter than the number of vertices (`Linked.depth_lt`).

`Lays` says that a tree of numbers is right about the children of all its vertices. `Linked.lays_layoutAt` is existence,
`lays_unique` uniqueness, `Linked.nodup_layout` that no number stands in the layout twice, and `lays_graft` the one way
in which layouts change.
-/
import MountSpace.Proofs.Outline.Rose
import MountSpace.Proofs.Tree.Links
import Mathlib.Data.List.Perm.Subperm

namespace MountSpace.Tree

/-- the vertices from a vertex downwards, to a depth -/
def layoutAt (t : Tree) : Nat → NodeId → Rose NodeId
  | 0, id => .node id []
  | depth + 1, id => .node id ((t.childrenOf id).map (t.layoutAt depth))

/-- the vertices from the root downwards -/
def layout (t : Tree) : Rose NodeId := t.layoutAt t.nextId t.root

@[simp] theorem label_layoutAt (t : Tree) (depth : Nat) (id : NodeId) : (t.layoutAt depth id).label = id := by
  cases depth <;> rfl

@[simp] theorem label_layout (t : Tree) : t.layout.label = t.root := label_layoutAt ..

theorem attached_root (t : Tree) : t.isAttached t.root = true := (t.isAttached_iff _).2 (.inl rfl)

theorem attached_layout (t : Tree) : t.isAttached t.layout.label = true := by
  rw [label_layout]
  exact attached_root t

/-- every vertex of the tree of numbers has just these children, in this order -/
def Lays (t : Tree) (l : Rose NodeId) : Prop :=
  ∀ s ∈ l.subtrees, t.childrenOf s.label = s.children.map Rose.label

theorem lays_node {t : Tree} {id : NodeId} {cs : List (Rose NodeId)} :
    t.Lays (.node id cs) ↔ t.childrenOf id = cs.map Rose.label ∧ ∀ c ∈ cs, t.Lays c := by
  unfold Lays
  constructor
  · intro h
    refine ⟨h _ (Rose.self_mem_subtrees _), fun c hc s hs => h s ?_⟩
    exact Rose.mem_subtrees_node.2 (.inr ⟨c, hc, hs⟩)
  · rintro ⟨htop, hbelow⟩ s hs
    rcases Rose.mem_subtrees_node.1 hs with rfl | ⟨c, hc, hsc⟩
    · exact htop
    · exact hbelow c hc s hsc

theorem Lays.subtree {t : Tree} {l s : Rose NodeId} (h : t.Lays l) (hs : s ∈ l.subtrees) : t.Lays s :=
  fun u hu => h u (Rose.subtrees_trans hu hs)

theorem Lays.congr {t u : Tree} {l : Rose NodeId} (h : t.Lays l)
    (hc : ∀ k ∈ l.labels, u.childrenOf k = t.childrenOf k) : u.Lays l := by
  intro s hs
  rw [hc s.label (List.mem_map_of_mem hs)]
  exact h s hs

/-- the children settle a layout below its top -/
theorem lays_unique {t : Tree} {l m : Rose NodeId} (hl : t.Lays l) (hm : t.Lays m) (htop : l.label = m.label) :
    l = m := by
  induction l generalizing m with
  | node a cs ih =>
    cases m with
    | node b ds =>
      obtain rfl : a = b := htop
      obtain ⟨hca, hcs⟩ := lays_node.1 hl
      obtain ⟨hda, hds⟩ := lays_node.1 hm
      have hlabels : cs.map Rose.label = ds.map Rose.label := hca.symm.trans hda
      refine congrArg _ (List.ext_getElem ?_ fun i hi hj => ?_)
      · simpa using congrArg List.length hlabels
      · refine ih cs[i] (List.getElem_mem hi) (hcs _ (List.getElem_mem hi)) (hds _ (List.getElem_mem hj)) ?_
        simpa [hi, hj] using congrArg (fun labels => labels[i]?) hlabels

/-! ## Depths -/

theorem ancestor_add (t : Tree) (m n : Nat) (id : NodeId) :
    t.ancestor (m + n) id = (t.ancestor m id).bind (t.ancestor n) := by
  induction m generalizing id with
  | zero => rw [Nat.zero_add]; rfl
  | succ m ih =>
    rw [Nat.succ_add, ancestor, ancestor]
    cases t.parentOf id with
    | none => rfl
    | some p => exact ih p

namespace Linked

variable {t : Tree} (h : t.Linked)
include h

/-- above the root there is nothing -/
theorem ancestor_root (n : Nat) : t.ancestor (n + 1) t.root = none := by
  rw [ancestor, h.rootFree]
  rfl

theorem depth_unique {id : NodeId} {m n : Nat} (hm : t.ancestor m id = some t.root)
    (hn : t.ancestor n id = some t.root) : m = n := by
  have key : ∀ {a b : Nat}, t.ancestor a id = some t.root → t.ancestor b id = some t.root → ¬ a < b := by
    intro a b ha hb hab
    obtain ⟨k, rfl⟩ := Nat.exists_eq_add_of_lt hab
    rw [Nat.add_assoc, ancestor_add, ha, Option.bind_some, h.ancestor_root] at hb
    cases hb
  have h1 := key hm hn
  have h2 := key hn hm
  omega

/-- no vertex lies above itself -/
theorem ancestor_ne_self {id : NodeId} (ha : t.isAttached id = true) (n : Nat) : t.ancestor (n + 1) id ≠ some id := by
  intro hs
  obtain ⟨d, hd⟩ := h.ascends ha
  have hlong : t.ancestor (n + 1 + d) id = some t.root := by rw [ancestor_add, hs]; exact hd
  have := h.depth_unique hd hlong
  omega

/-- the way up to the root passes distinct vertices, so it is shorter than their number -/
theorem depth_lt {id : NodeId} {n : Nat} (hn : t.ancestor n id = some t.root) : n < t.nextId := by
  have hstep : ∀ i, i ≤ n → ∃ k, t.ancestor i id = some k ∧ t.ancestor (n - i) k = some t.root := by
    intro i hi
    have hsplit : t.ancestor (i + (n - i)) id = some t.root := by rw [Nat.add_sub_cancel' hi]; exact hn
    rw [ancestor_add] at hsplit
    exact Option.bind_eq_some_iff.1 hsplit
  let way : Nat → NodeId := fun i => (t.ancestor i id).getD 0
  have hway : ((List.range (n + 1)).map way).Nodup := by
    refine List.Nodup.map_on (fun i hi j hj hij => ?_) List.nodup_range
    rw [List.mem_range] at hi hj
    obtain ⟨k, hk, hkr⟩ := hstep i (by omega)
    obtain ⟨l, hl, hlr⟩ := hstep j (by omega)
    obtain rfl : k = l := by simpa [way, hk, hl] using hij
    have := h.depth_unique hkr hlr
    omega
  have hbound : (List.range (n + 1)).map way ⊆ List.range t.nextId := by
    intro k hk
    obtain ⟨i, hi, rfl⟩ := List.mem_map.1 hk
    rw [List.mem_range] at hi
    obtain ⟨k, hk, hkr⟩ := hstep i (by omega)
    have hka : t.isAttached k = true := by
      cases hm : n - i with
      | zero =>
        rw [hm] at hkr
        exact (t.isAttached_iff k).2 (.inl (Option.some.inj hkr))
      | succ m =>
        rw [hm, ancestor] at hkr
        obtain ⟨p, hp, -⟩ := Option.bind_eq_some_iff.1 hkr
        exact (t.isAttached_iff k).2 (.inr ⟨p, hp⟩)
    have hk' : way i = k := by simp [way, hk]
    rw [hk', List.mem_range]
    exact h.lt_nextId hka
  have hlen := (List.subperm_of_subset hway hbound).length_le
  rw [List.length_map, List.length_range, List.length_range] at hlen
  exact hlen

/-! ## The layout is right -/

theorem lays_layoutAt_of_depth {id : NodeId} {n depth : Nat} (hn : t.ancestor n id = some t.root)
    (hdepth : t.nextId ≤ n + depth) : t.Lays (t.layoutAt depth id) := by
  induction depth generalizing id n with
  | zero => exact absurd (h.depth_lt hn) (Nat.not_lt_of_le hdepth)
  | succ depth ih =>
    refine lays_node.2 ⟨?_, fun c hc => ?_⟩
    · simp [Function.comp_def]
    · obtain ⟨c, hcm, rfl⟩ := List.mem_map.1 hc
      have hp := (h.linked id c).2 hcm
      refine ih (n := n + 1) ?_ ?_
      · rw [ancestor, hp]
        exact hn
      · rwa [Nat.add_assoc, Nat.add_comm 1]

theorem lays_layoutAt {id : NodeId} (ha : t.isAttached id = true) : t.Lays (t.layoutAt t.nextId id) := by
  obtain ⟨n, hn⟩ := h.ascends ha
  exact h.lays_layoutAt_of_depth hn (Nat.le_add_left _ _)

theorem lays_layout : t.Lays t.layout := h.lays_layoutAt (attached_root t)

/-- what lies below a vertex in a layout has it as an ancestor -/
theorem ancestor_of_mem_labels {l : Rose NodeId} (hl : t.Lays l) {k : NodeId} (hk : k ∈ l.labels) :
    ∃ n, t.ancestor n k = some l.label := by
  induction l with
  | node a cs ih =>
    rcases Rose.mem_labels_node.1 hk with rfl | ⟨c, hc, hkc⟩
    · exact ⟨0, rfl⟩
    · obtain ⟨hchildren, hcs⟩ := lays_node.1 hl
      obtain ⟨n, hn⟩ := ih c hc (hcs c hc) hkc
      have hm : c.label ∈ t.childrenOf a := by rw [hchildren]; exact List.mem_map_of_mem hc
      have hp := (h.linked a c.label).2 hm
      refine ⟨n + 1, ?_⟩
      rw [ancestor_add, hn, Option.bind_some, ancestor, hp]
      rfl

theorem attached_of_mem_labels {l : Rose NodeId} (hl : t.Lays l) (ha : t.isAttached l.label = true) {k : NodeId}
    (hk : k ∈ l.labels) : t.isAttached k = true := by
  obtain ⟨n, hn⟩ := h.ancestor_of_mem_labels hl hk
  cases n with
  | zero => rw [Option.some.inj hn]; exact ha
  | succ n =>
    rw [ancestor] at hn
    obtain ⟨p, hp, -⟩ := Option.bind_eq_some_iff.1 hn
    exact (t.isAttached_iff k).2 (.inr ⟨p, hp⟩)

theorem nodup_of_lays {l : Rose NodeId} (hl : t.Lays l) (ha : t.isAttached l.label = true) : l.labels.Nodup := by
  induction l with
  | node a cs ih =>
    obtain ⟨hchildren, hcs⟩ := lays_node.1 hl
    have hparent : ∀ c ∈ cs, t.parentOf c.label = some a := fun c hc => by
      rw [h.linked, hchildren]
      exact List.mem_map_of_mem hc
    have hatt : ∀ c ∈ cs, t.isAttached c.label = true := fun c hc => (t.isAttached_iff _).2 (.inr ⟨a, hparent c hc⟩)
    have habove : ∀ c ∈ cs, ∀ k ∈ c.labels, ∃ n, t.ancestor (n + 1) k = some a ∧ t.ancestor n k = some c.label := by
      intro c hc k hk
      obtain ⟨n, hn⟩ := h.ancestor_of_mem_labels (hcs c hc) hk
      refine ⟨n, ?_, hn⟩
      rw [ancestor_add, hn, Option.bind_some, ancestor, hparent c hc]
      rfl
    refine Rose.nodup_labels_node.2 ⟨fun c hc hac => ?_, fun c hc => ih c hc (hcs c hc) (hatt c hc), ?_⟩
    · obtain ⟨n, hn, -⟩ := habove c hc a hac
      exact h.ancestor_ne_self ha n hn
    · have hlabels : (cs.map Rose.label).Nodup := by rw [← hchildren]; exact h.once a
      refine (List.pairwise_map.1 hlabels).imp_of_mem fun {c d} hc hd hne => ?_
      intro k hkc hkd
      obtain ⟨m, hma, hmc⟩ := habove c hc k hkc
      obtain ⟨n, hna, hnd⟩ := habove d hd k hkd
      obtain ⟨e, he⟩ := h.ascends ha
      have hm : t.ancestor (m + 1 + e) k = some t.root := by rw [ancestor_add, hma]; exact he
      have hn : t.ancestor (n + 1 + e) k = some t.root := by rw [ancestor_add, hna]; exact he
      have hmn : m = n := by
        have := h.depth_unique hm hn
        omega
      rw [hmn, hnd] at hmc
      exact hne (Option.some.inj hmc).symm

theorem nodup_layout : t.layout.labels.Nodup := h.nodup_of_lays h.lays_layout (attached_layout t)

/-- a right tree of numbers is what `layoutAt` finds -/
theorem eq_layoutAt {l : Rose NodeId} (hl : t.Lays l) (ha : t.isAttached l.label = true) :
    l = t.layoutAt t.nextId l.label :=
  lays_unique hl (h.lays_layoutAt ha) (by rw [label_layoutAt])

theorem eq_layout {l : Rose NodeId} (hl : t.Lays l) (htop : l.label = t.root) : l = t.layout := by
  have hla : t.isAttached l.label = true := by rw [htop]; exact attached_root t
  rw [h.eq_layoutAt hl hla, htop]
  rfl

end Linked

/-! ## How a layout changes -/

/-- **A step at one vertex.** Where the lists of children change by a graft, so does the layout. -/
theorem lays_graft {u : Tree} {x : NodeId} {f : Rose NodeId → Rose NodeId} {l : Rose NodeId}
    (hc : ∀ s ∈ l.subtrees, s.label ≠ x → u.childrenOf s.label = s.children.map fun c => (c.graft x f).label)
    (hx : ∀ s ∈ l.subtrees, s.label = x → u.Lays (f s)) : u.Lays (l.graft x f) := by
  induction l with
  | node a cs ih =>
    rw [Rose.graft_node]
    split
    · next ha => exact hx _ (Rose.self_mem_subtrees _) ha
    · next ha =>
      refine lays_node.2 ⟨?_, fun d hd => ?_⟩
      · rw [List.map_map]
        exact hc _ (Rose.self_mem_subtrees _) ha
      · obtain ⟨c, hcm, rfl⟩ := List.mem_map.1 hd
        have hsub : ∀ s ∈ c.subtrees, s ∈ (Rose.node a cs).subtrees := fun s hs =>
          Rose.mem_subtrees_node.2 (.inr ⟨c, hcm, hs⟩)
        exact ih c hcm (fun s hs => hc s (hsub s hs)) fun s hs => hx s (hsub s hs)

end MountSpace.Tree

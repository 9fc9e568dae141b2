/-
Ordered trees with a label at every node, whatever the labels are: names with their mounts in an outline, numbers of
vertices in the layout of an arena. Relabelling (`map`) keeps the shape; `graft` changes the subtrees under one label.

When labels do not repeat, a graft changes one subtree and nothing beside it (`graft_of_not_mem`), which is what lets a
step in the arena be read as a change at one place of the outline.
-/
import Mathlib.Data.List.Nodup

namespace MountSpace

/-- an ordered tree with a label at every node -/
inductive Rose (α : Type) where
  | node (label : α) (children : List (Rose α))

namespace Rose

variable {α β γ : Type}

/-- the label at the top -/
def label : Rose α → α
  | node a _ => a

/-- the subtrees right below the top, in order -/
def children : Rose α → List (Rose α)
  | node _ cs => cs

@[simp] theorem label_node (a : α) (cs : List (Rose α)) : (node a cs).label = a := rfl

@[simp] theorem children_node (a : α) (cs : List (Rose α)) : (node a cs).children = cs := rfl

@[elab_as_elim, induction_eliminator]
theorem induct {motive : Rose α → Prop} (node : ∀ a cs, (∀ c ∈ cs, motive c) → motive (node a cs)) :
    ∀ t, motive t
  | .node a cs => node a cs fun c _ => induct node c

/-! ## Relabelling -/

/-- every label changed -/
def map (f : α → β) : Rose α → Rose β
  | node a cs => node (f a) (cs.map (map f))

@[simp] theorem map_node (f : α → β) (a : α) (cs : List (Rose α)) :
    (node a cs).map f = node (f a) (cs.map (map f)) := by
  rw [map]

@[simp] theorem label_map (f : α → β) (t : Rose α) : (t.map f).label = f t.label := by
  cases t with
  | node a cs => rw [map_node]; rfl

@[simp] theorem children_map (f : α → β) (t : Rose α) : (t.map f).children = t.children.map (map f) := by
  cases t with
  | node a cs => rw [map_node]; rfl

/-! ## Subtrees and labels -/

/-- the tree and all subtrees below it -/
def subtrees : Rose α → List (Rose α)
  | node a cs => node a cs :: cs.flatMap subtrees

theorem subtrees_node (a : α) (cs : List (Rose α)) :
    (node a cs).subtrees = node a cs :: cs.flatMap subtrees := by
  rw [subtrees]

theorem mem_subtrees_node {s : Rose α} {a : α} {cs : List (Rose α)} :
    s ∈ (node a cs).subtrees ↔ s = node a cs ∨ ∃ c ∈ cs, s ∈ c.subtrees := by
  rw [subtrees_node, List.mem_cons, List.mem_flatMap]

theorem self_mem_subtrees (t : Rose α) : t ∈ t.subtrees := by
  cases t with
  | node a cs => exact mem_subtrees_node.2 (.inl rfl)

theorem subtrees_trans {s u t : Rose α} (hs : s ∈ u.subtrees) (hu : u ∈ t.subtrees) : s ∈ t.subtrees := by
  induction t with
  | node a cs ih =>
    rcases mem_subtrees_node.1 hu with rfl | ⟨c, hc, huc⟩
    · exact hs
    · exact mem_subtrees_node.2 (.inr ⟨c, hc, ih c hc huc⟩)

/-- the labels of the tree, each node before its children -/
def labels (t : Rose α) : List α := t.subtrees.map label

theorem labels_node (a : α) (cs : List (Rose α)) : (node a cs).labels = a :: cs.flatMap labels := by
  unfold labels
  rw [subtrees_node, List.map_cons, List.map_flatMap]
  rfl

theorem mem_labels_node {x a : α} {cs : List (Rose α)} :
    x ∈ (node a cs).labels ↔ x = a ∨ ∃ c ∈ cs, x ∈ c.labels := by
  rw [labels_node, List.mem_cons, List.mem_flatMap]

theorem label_mem_labels (t : Rose α) : t.label ∈ t.labels := List.mem_map_of_mem (self_mem_subtrees t)

theorem labels_subset {s t : Rose α} (h : s ∈ t.subtrees) {x : α} (hx : x ∈ s.labels) : x ∈ t.labels := by
  obtain ⟨u, hu, rfl⟩ := List.mem_map.1 hx
  exact List.mem_map_of_mem (subtrees_trans hu h)

theorem map_congr {f g : α → β} {t : Rose α} (h : ∀ a ∈ t.labels, f a = g a) : t.map f = t.map g := by
  induction t with
  | node a cs ih =>
    rw [map_node, map_node, h a (mem_labels_node.2 (.inl rfl))]
    refine congrArg _ (List.map_congr_left fun c hc => ih c hc fun x hx => ?_)
    exact h x (mem_labels_node.2 (.inr ⟨c, hc, hx⟩))

/-- labels do not repeat: the top is not below itself, and no label is below two children -/
theorem nodup_labels_node {a : α} {cs : List (Rose α)} :
    (node a cs).labels.Nodup ↔ (∀ c ∈ cs, a ∉ c.labels) ∧ (∀ c ∈ cs, c.labels.Nodup) ∧
      cs.Pairwise fun c d => List.Disjoint c.labels d.labels := by
  rw [labels_node, List.nodup_cons, List.nodup_flatMap]
  simp only [List.mem_flatMap, not_exists, not_and]

/-! ## Changing the subtrees under a label -/

variable [DecidableEq α]

/-- every subtree under the label `x` changed -/
def graft (x : α) (f : Rose α → Rose α) : Rose α → Rose α
  | node a cs => if a = x then f (node a cs) else node a (cs.map (graft x f))

theorem graft_node (x : α) (f : Rose α → Rose α) (a : α) (cs : List (Rose α)) :
    (node a cs).graft x f = if a = x then f (node a cs) else node a (cs.map (graft x f)) := by
  rw [graft]

theorem graft_label (f : Rose α → Rose α) (t : Rose α) : t.graft t.label f = f t := by
  cases t with
  | node a cs => rw [label_node, graft_node, if_pos rfl]

theorem label_graft (x : α) (f : Rose α → Rose α) (t : Rose α) :
    (t.graft x f).label = if t.label = x then (f t).label else t.label := by
  cases t with
  | node a cs =>
    rw [graft_node, label_node]
    split <;> rfl

theorem graft_of_not_mem {x : α} {t : Rose α} (h : x ∉ t.labels) (f : Rose α → Rose α) : t.graft x f = t := by
  induction t with
  | node a cs ih =>
    rw [mem_labels_node, not_or] at h
    rw [graft_node, if_neg (Ne.symm h.1)]
    refine congrArg _ ?_
    have hid : ∀ c ∈ cs, c.graft x f = id c := fun c hc => ih c hc fun hx => h.2 ⟨c, hc, hx⟩
    rw [List.map_congr_left hid, List.map_id]

end Rose

end MountSpace

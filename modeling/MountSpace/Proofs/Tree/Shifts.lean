/-
Vertices under other numbers. Where a number is given out that is not given out elsewhere, all later ones are one higher
(`shift`), and where it takes the place of another vertex, what led to that vertex leads to it (`detour`). Nodes, places
and vertices are alike if they differ in nothing but that and in their times, of which it is only asked that they
correspond. A tree that has left a number out is told by its vertices one by one (`Skipping`).
-/
import MountSpace.Proofs.Tree.Finding

namespace MountSpace

/-! ## Numbers -/

/-- the number of a vertex where the number `n` is taken by another one -/
def shift (n k : Nat) : Nat := if k < n then k else k + 1

theorem shift_of_lt {n k : Nat} (h : k < n) : shift n k = k := if_pos h

theorem shift_of_le {n k : Nat} (h : n ≤ k) : shift n k = k + 1 := if_neg (Nat.not_lt.2 h)

theorem shift_ne (n k : Nat) : shift n k ≠ n := by
  unfold shift
  split <;> omega

theorem shift_inj {n a b : Nat} : shift n a = shift n b ↔ a = b := by
  unfold shift
  constructor
  · split <;> split <;> omega
  · rintro rfl
    rfl

/-- every number but the one that is taken is shifted from one -/
theorem exists_shift {n j : Nat} (h : j ≠ n) : ∃ k, shift n k = j := by
  rcases Nat.lt_or_gt_of_ne h with hn | hn
  · exact ⟨j, shift_of_lt hn⟩
  · exact ⟨j - 1, by rw [shift_of_le (by omega)]; omega⟩

/-- the number of what stands in the place of a vertex, where `n` has taken the place of `e` -/
def detour (n e k : Nat) : Nat := if k = e then n else shift n k

theorem detour_self (n e : Nat) : detour n e e = n := if_pos rfl

theorem detour_of_ne {n e k : Nat} (h : k ≠ e) : detour n e k = shift n k := if_neg h

theorem detour_inj {n e a b : Nat} : detour n e a = detour n e b ↔ a = b := by
  constructor
  · unfold detour
    split_ifs with ha hb hb
    · exact fun _ => ha.trans hb.symm
    · exact fun h => absurd h.symm (shift_ne n b)
    · exact fun h => absurd h (shift_ne n a)
    · exact shift_inj.1
  · rintro rfl
    rfl

theorem detour_ne {n e : Nat} (h : e < n) (k : Nat) : detour n e k ≠ e := by
  unfold detour shift
  split_ifs <;> omega

/-- every number but that of the vertex is one of a detour -/
theorem exists_detour {n e j : Nat} (h : e < n) (hj : j ≠ e) : ∃ k, detour n e k = j := by
  by_cases hn : j = n
  · exact ⟨e, by rw [detour_self, hn]⟩
  · obtain ⟨k, rfl⟩ := exists_shift hn
    refine ⟨k, detour_of_ne ?_⟩
    rintro rfl
    exact hj (shift_of_lt h)

/-- one vertex put in the place of another, on either side of a detour -/
theorem put_detour (n e x r k : NodeId) :
    Tree.put (detour n e x) (detour n e r) (detour n e k) = detour n e (Tree.put x r k) := by
  unfold Tree.put
  simp only [detour_inj]
  split <;> rfl

/-! ## Nodes -/

/-- the record under the number it has where `n` is taken -/
def MountRecord.shift (n : NodeId) (r : MountRecord) : MountRecord := { r with serial := MountSpace.shift n r.serial }

/-- times that correspond, each to each -/
structure NodeTimes.Alike (R : Time → Time → Prop) (a b : NodeTimes) : Prop where
  created : R a.created b.created
  accessed : R a.accessed b.accessed
  modified : R a.modified b.modified

/-- nodes that are the same but for the numbers and the times -/
inductive Node.Alike (n : NodeId) (R : Time → Time → Prop) : Node → Node → Prop where
  | directory {name : String} {times times' : NodeTimes} {shadowed : Option NodeId} (h : times.Alike R times') :
      Node.Alike n R (.directory ⟨name, times, shadowed⟩) (.directory ⟨name, times', shadowed.map (shift n)⟩)
  | mount {name : String} {record : MountRecord} {times times' : NodeTimes} {shadowed : NodeId}
      (h : times.Alike R times') :
      Node.Alike n R (.mount ⟨name, record, times, shadowed⟩) (.mount ⟨name, record.shift n, times', shift n shadowed⟩)

namespace Node.Alike

variable {n : NodeId} {R : Time → Time → Prop} {x y : Node} (h : x.Alike n R y)
include h

theorem name : y.name = x.name := by cases h <;> rfl

theorem setName (new : String) : (x.setName new).Alike n R (y.setName new) := by
  cases h with
  | directory h => exact .directory h
  | mount h => exact .mount h

theorem touch {a b : Time} (hR : R a b) : (x.touch a).Alike n R (y.touch b) := by
  cases h with
  | directory h => exact .directory ⟨h.created, h.accessed, hR⟩
  | mount h => exact .mount ⟨h.created, h.accessed, hR⟩

end Node.Alike

/-- places that are the same but for the numbers and the times -/
inductive Place.Alike (n : NodeId) (R : Time → Time → Prop) : Place → Place → Prop where
  | directory {id : NodeId} {d d' : Directory} (h : Node.Alike n R (.directory d) (.directory d')) :
      Place.Alike n R (.directory id d) (.directory (shift n id) d')
  | mount {id : NodeId} {m m' : MountNode} (h : Node.Alike n R (.mount m) (.mount m')) :
      Place.Alike n R (.mount id m) (.mount (shift n id) m')
  | real {name : String} {at_ : ExternalPath} : Place.Alike n R (.real name at_) (.real name at_)

theorem Node.Alike.place {n : NodeId} {R : Time → Time → Prop} {x y : Node} (h : x.Alike n R y) (id : NodeId) :
    Place.Alike n R (.ofNode id x) (.ofNode (shift n id) y) := by
  cases h with
  | directory h => exact .directory (.directory h)
  | mount h => exact .mount (.mount h)

/-- whether something else than a vertex is at a place, told alike -/
theorem taken_alike {n : NodeId} {R : Time → Time → Prop} {x y : Option Place} (h : Option.Rel (Place.Alike n R) x y)
    (id : NodeId) : (y.isSome && y.bind Place.nodeId? ≠ some (shift n id)) =
      (x.isSome && x.bind Place.nodeId? ≠ some id) := by
  cases h with
  | none => rfl
  | some halike => cases halike <;> simp [Place.nodeId?, shift_inj]

/-- outcomes that are the same error, or results in a relation -/
inductive Agrees {α β : Type} (r : α → β → Prop) : Except FsError α → Except FsError β → Prop where
  | ok {a : α} {b : β} (h : r a b) : Agrees r (.ok a) (.ok b)
  | error (e : FsError) : Agrees r (.error e) (.error e)

theorem isSome_of_rel {α β : Type} {r : α → β → Prop} {a : Option α} {b : Option β} (h : Option.Rel r a b) :
    b.isSome = a.isSome := by
  cases h <;> rfl

/-- two options of which both or neither have a value, in a relation if both do -/
theorem rel_of_isSome {α β : Type} {r : α → β → Prop} {a : Option α} {b : Option β} (hs : b.isSome = a.isSome)
    (h : ∀ x y, a = some x → b = some y → r x y) : Option.Rel r a b := by
  cases a with
  | none =>
    cases b with
    | none => exact .none
    | some y => cases hs
  | some x =>
    cases b with
    | none => cases hs
    | some y => exact .some (h x y rfl rfl)
/-- vertices that are the same but for the numbers and the times -/
structure Vertex.Alike (n : NodeId) (R : Time → Time → Prop) (v w : Vertex) : Prop where
  node : v.node.Alike n R w.node
  parent : w.parent = v.parent.map (shift n)
  children : w.children = v.children.map (shift n)

namespace Tree

/-- the second tree is the first one, but that a number has been left out and that times may be other ones -/
structure Skipping (n : NodeId) (R : Time → Time → Prop) (t u : Tree) : Prop where
  root : u.root = shift n t.root
  next : u.nextId = t.nextId + 1
  vertex : ∀ k, Option.Rel (Vertex.Alike n R) (t.get? k) (u.get? (shift n k))
  skipped : u.get? n = none

theorem put_detour_self {n e : Nat} (h : e < n) (k : Nat) : put n e (detour n e k) = shift n k := by
  by_cases hk : k = e
  · rw [hk, detour_self, put, if_pos rfl, shift_of_lt h]
  · rw [detour_of_ne hk, put, if_neg (shift_ne n k)]

section Links

variable {t u : Tree} (ht : t.Linked) (hu : u.Linked)
include ht hu

/-- parents correspond if lists of children do -/
theorem parentOf_map {f : NodeId → NodeId} (inj : ∀ {a b}, f a = f b ↔ a = b)
    (children : ∀ k, u.childrenOf (f k) = (t.childrenOf k).map f) (onto : ∀ q, (∃ p, f p = q) ∨ u.childrenOf q = [])
    (k : NodeId) : u.parentOf (f k) = (t.parentOf k).map f := by
  refine Option.ext fun q => ?_
  rw [hu.linked, Option.map_eq_some_iff]
  constructor
  · intro hq
    obtain ⟨p, rfl⟩ | hbare := onto q
    · rw [children] at hq
      obtain ⟨c, hc, heq⟩ := List.mem_map.1 hq
      exact ⟨p, (ht.linked p k).2 (inj.1 heq ▸ hc), rfl⟩
    · rw [hbare] at hq
      cases hq
  · rintro ⟨p, hp, rfl⟩
    rw [children]
    exact List.mem_map_of_mem ((ht.linked p k).1 hp)

/-- the views of a tree that has left a number out -/
theorem skipping_of_views {n : NodeId} {R : Time → Time → Prop} (root : u.root = shift n t.root)
    (next : u.nextId = t.nextId + 1) (nodes : ∀ k, Option.Rel (Node.Alike n R) (t.node? k) (u.node? (shift n k)))
    (children : ∀ k, u.childrenOf (shift n k) = (t.childrenOf k).map (shift n)) (bare : u.childrenOf n = [])
    (skipped : u.node? n = none) : t.Skipping n R u := by
  have onto : ∀ q, (∃ p, shift n p = q) ∨ u.childrenOf q = [] := by
    intro q
    by_cases hq : q = n
    · exact .inr (hq ▸ bare)
    · exact .inl (exists_shift hq)
  refine ⟨root, next, fun k => ?_, Option.map_eq_none_iff.1 skipped⟩
  refine rel_of_isSome ?_ fun v w hv hw => ?_
  · rw [← node?_isSome, ← node?_isSome]
    exact isSome_of_rel (nodes k)
  · have hnode := nodes k
    rw [node?_of_get? hv, node?_of_get? hw] at hnode
    cases hnode with
    | some halike =>
      refine ⟨halike, ?_, ?_⟩
      · rw [← parentOf_of_get? hv, ← parentOf_of_get? hw, parentOf_map ht hu shift_inj children onto]
      · rw [← childrenOf_of_get? hv, ← childrenOf_of_get? hw, children]

end Links

end Tree

end MountSpace

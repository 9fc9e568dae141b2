/-
What the steps of a tree do to its views: the node of a vertex (`node?`), its parent (`parentOf`) and its children
(`childrenOf`). Everything later on argues through these views and opens no step again.

`get?_splice` is the one hard case. A splice rewires in three places at once: the vertex put in place takes over the
parent and the children, every child gets it as its parent, and the parent's list of children holds it where the other
one stood. Nothing else moves, and no node is touched (`node?_splice`).

What each operation makes of the nodes is one equation for every vertex, whatever it was asked for: `node?_append`,
`node?_delete`, `node?_replaceWith`, `node?_unmount`, `node?_rename`.
-/
import MountSpace.Tree.Basic
import Mathlib.Data.List.Nodup
import Mathlib.Tactic.SplitIfs

namespace MountSpace.Tree

/-! ## Reading the views -/

theorem node?_of_get? {t : Tree} {id : NodeId} {v : Vertex} (h : t.get? id = some v) : t.node? id = some v.node := by
  simp [node?, h]

theorem parentOf_of_get? {t : Tree} {id : NodeId} {v : Vertex} (h : t.get? id = some v) :
    t.parentOf id = v.parent := by
  simp [parentOf, h]

theorem childrenOf_of_get? {t : Tree} {id : NodeId} {v : Vertex} (h : t.get? id = some v) :
    t.childrenOf id = v.children := by
  simp [childrenOf, h]

theorem get?_of_node? {t : Tree} {id : NodeId} {n : Node} (h : t.node? id = some n) :
    t.get? id = some ⟨n, t.parentOf id, t.childrenOf id⟩ := by
  unfold node? at h
  cases hv : t.get? id with
  | none => rw [hv] at h; cases h
  | some v =>
    rw [hv] at h
    cases h
    rw [parentOf_of_get? hv, childrenOf_of_get? hv]

theorem node?_isSome (t : Tree) (id : NodeId) : (t.node? id).isSome = (t.get? id).isSome := Option.isSome_map

theorem lt_nextId_of_get? {t : Tree} {id : NodeId} {v : Vertex} (h : t.get? id = some v) : id < t.nextId := by
  by_contra hn
  rw [t.get?_of_nextId_le (Nat.le_of_not_lt hn)] at h
  cases h

/-- what has a parent or is a child's parent is there -/
theorem get?_isSome_of_parentOf {t : Tree} {c p : NodeId} (h : t.parentOf c = some p) : (t.get? c).isSome := by
  unfold parentOf at h
  cases hv : t.get? c with
  | none => rw [hv] at h; cases h
  | some v => rfl

theorem get?_isSome_of_mem_childrenOf {t : Tree} {c p : NodeId} (h : c ∈ t.childrenOf p) : (t.get? p).isSome := by
  unfold childrenOf at h
  cases hv : t.get? p with
  | none => rw [hv] at h; cases h
  | some v => rfl

theorem isAttached_iff (t : Tree) (id : NodeId) :
    t.isAttached id = true ↔ id = t.root ∨ ∃ p, t.parentOf id = some p := by
  simp [isAttached, Option.isSome_iff_exists]

theorem isAttached_eq_false (t : Tree) (id : NodeId) :
    t.isAttached id = false ↔ id ≠ t.root ∧ t.parentOf id = none := by
  simp [isAttached]

/-! ## A new vertex, and one taken out -/

theorem node?_push (t : Tree) (v : Vertex) (k : NodeId) :
    (t.push v).node? k = if k = t.nextId then some v.node else t.node? k := by
  unfold node?
  rw [get?_push]
  split <;> rfl

theorem parentOf_push (t : Tree) (v : Vertex) (k : NodeId) :
    (t.push v).parentOf k = if k = t.nextId then v.parent else t.parentOf k := by
  unfold parentOf
  rw [get?_push]
  split <;> rfl

theorem childrenOf_push (t : Tree) (v : Vertex) (k : NodeId) :
    (t.push v).childrenOf k = if k = t.nextId then v.children else t.childrenOf k := by
  unfold childrenOf
  rw [get?_push]
  split <;> rfl

theorem node?_drop (t : Tree) (id k : NodeId) : (t.drop id).node? k = if id = k then none else t.node? k := by
  unfold node?
  rw [get?_drop]
  split <;> rfl

theorem parentOf_drop (t : Tree) (id k : NodeId) :
    (t.drop id).parentOf k = if id = k then none else t.parentOf k := by
  unfold parentOf
  rw [get?_drop]
  split <;> rfl

theorem childrenOf_drop (t : Tree) (id k : NodeId) :
    (t.drop id).childrenOf k = if id = k then [] else t.childrenOf k := by
  unfold childrenOf
  rw [get?_drop]
  split <;> rfl

/-! ## A vertex changed in place -/

theorem node?_update (t : Tree) (id k : NodeId) (f : Vertex → Vertex) :
    (t.update id f).node? k = if id = k then (t.get? k).map fun v => (f v).node else t.node? k := by
  unfold node?
  rw [get?_update]
  split
  · rw [Option.map_map]; rfl
  · rfl

theorem node?_update_links (t : Tree) (id k : NodeId) {f : Vertex → Vertex} (hf : ∀ v, (f v).node = v.node) :
    (t.update id f).node? k = t.node? k := by
  rw [node?_update]
  simp only [hf]
  exact ite_self _

theorem parentOf_update (t : Tree) (id k : NodeId) {f : Vertex → Vertex} (hf : ∀ v, (f v).parent = v.parent) :
    (t.update id f).parentOf k = t.parentOf k := by
  unfold parentOf
  rw [get?_update]
  split
  · cases t.get? k with
    | none => rfl
    | some v => exact hf v
  · rfl

theorem childrenOf_update (t : Tree) (id k : NodeId) {f : Vertex → Vertex} (g : List NodeId → List NodeId)
    (hf : ∀ v, (f v).children = g v.children) :
    (t.update id f).childrenOf k = if id = k ∧ (t.get? k).isSome then g (t.childrenOf k) else t.childrenOf k := by
  unfold childrenOf
  rw [get?_update]
  cases t.get? k with
  | none => simp
  | some v => by_cases h : id = k <;> simp [h, hf]

/-! ## Splicing -/

/-- the children of a vertex given another parent, one after the other -/
theorem get?_foldl_reparent (children : List NodeId) (r k : NodeId) (t : Tree) :
    (children.foldl (fun t child => t.update child fun v => { v with parent := some r }) t).get? k =
      if k ∈ children then (t.get? k).map fun v => { v with parent := some r } else t.get? k := by
  induction children generalizing t with
  | nil => simp
  | cons c rest ih =>
    rw [List.foldl_cons, ih, get?_update]
    by_cases hc : c = k
    · subst hc
      by_cases hr : c ∈ rest
      · simp only [hr, if_true, List.mem_cons, true_or]
        cases t.get? c <;> rfl
      · simp [hr]
    · simp only [if_neg hc, List.mem_cons, Ne.symm hc, false_or]

theorem root_foldl_reparent (children : List NodeId) (r : NodeId) (t : Tree) :
    (children.foldl (fun t child => t.update child fun v => { v with parent := some r }) t).root = t.root := by
  induction children generalizing t with
  | nil => rfl
  | cons c rest ih => rw [List.foldl_cons, ih]; rfl

theorem nextId_foldl_reparent (children : List NodeId) (r : NodeId) (t : Tree) :
    (children.foldl (fun t child => t.update child fun v => { v with parent := some r }) t).nextId = t.nextId := by
  induction children generalizing t with
  | nil => rfl
  | cons c rest ih => rw [List.foldl_cons, ih, nextId_update]

theorem node?_foldl_reparent (children : List NodeId) (r k : NodeId) (t : Tree) :
    (children.foldl (fun t child => t.update child fun v => { v with parent := some r }) t).node? k = t.node? k := by
  induction children generalizing t with
  | nil => rfl
  | cons c rest ih =>
    rw [List.foldl_cons, ih]
    exact node?_update_links t c k fun _ => rfl

theorem nextId_splice (t : Tree) (e r : NodeId) : (t.splice e r).nextId = t.nextId := by
  unfold splice
  cases t.get? e with
  | none => rfl
  | some old =>
    simp only
    split
    · rw [nextId_update, nextId_update, nextId_foldl_reparent, nextId_update]
    · split_ifs
      · show (Tree.update _ _ _).nextId = _
        rw [nextId_update, nextId_foldl_reparent, nextId_update]
      · rw [nextId_update, nextId_foldl_reparent, nextId_update]

theorem root_splice (t : Tree) {e : NodeId} {old : Vertex} (he : t.get? e = some old) (r : NodeId) :
    (t.splice e r).root = if old.parent = none ∧ t.root = e then r else t.root := by
  simp only [splice, he]
  cases old.parent with
  | some p => simp only [reduceCtorEq, false_and, if_false]; exact root_foldl_reparent _ _ _
  | none =>
    simp only [true_and]
    have hroot : ∀ (u : Tree) (id : NodeId) (f : Vertex → Vertex), (u.update id f).root = u.root := fun _ _ _ => rfl
    rw [apply_ite Tree.root, hroot, root_foldl_reparent, hroot]

/-- a splice touches no node, whatever it is asked to put where -/
theorem node?_splice (t : Tree) (e r k : NodeId) : (t.splice e r).node? k = t.node? k := by
  unfold splice
  cases t.get? e with
  | none => rfl
  | some old =>
    have moved : (((old.children.foldl (fun t child => t.update child fun v => { v with parent := some r })
        (t.update e fun v => { v with parent := none, children := [] })).update r
          fun v => { v with parent := old.parent, children := old.children }).node? k) = t.node? k := by
      rw [node?_update_links, node?_foldl_reparent, node?_update_links]
      · exact fun _ => rfl
      · exact fun _ => rfl
    simp only
    split
    · rw [node?_update_links, moved]
      exact fun _ => rfl
    · split
      · exact moved
      · exact moved

/-- **A splice, vertex by vertex**, for a place that is neither a child nor the parent of itself or of what comes to
stand there. -/
theorem get?_splice (t : Tree) {e r : NodeId} {old : Vertex} (he : t.get? e = some old) (hne : r ≠ e)
    (hec : e ∉ old.children) (hrc : r ∉ old.children) (hpe : old.parent ≠ some e) (hpr : old.parent ≠ some r)
    (k : NodeId) :
    (t.splice e r).get? k =
      if k = e then some ⟨old.node, none, []⟩
      else if k = r then (t.get? r).map fun v => ⟨v.node, old.parent, old.children⟩
      else (t.get? k).map fun v => ⟨v.node, if k ∈ old.children then some r else v.parent,
        if old.parent = some k then v.children.replace e r else v.children⟩ := by
  have hbase : ∀ j, (((old.children.foldl (fun t child => t.update child fun v => { v with parent := some r })
      (t.update e fun v => { v with parent := none, children := [] })).update r
        fun v => { v with parent := old.parent, children := old.children }).get? j) =
      if j = e then some ⟨old.node, none, []⟩
      else if j = r then (t.get? r).map fun v => ⟨v.node, old.parent, old.children⟩
      else (t.get? j).map fun v => ⟨v.node, if j ∈ old.children then some r else v.parent, v.children⟩ := by
    intro j
    rw [get?_update, get?_foldl_reparent, get?_update]
    by_cases hj : j = e
    · subst hj; simp [hne, hec, he]
    by_cases hjr : j = r
    · subst hjr; simp [hne, hrc, Ne.symm hne]
    by_cases hjc : j ∈ old.children
    · simp [Ne.symm hj, Ne.symm hjr, hj, hjr, hjc]
    · simp [Ne.symm hj, Ne.symm hjr, hj, hjr, hjc]
  simp only [splice, he]
  cases hp : old.parent with
  | none =>
    simp only [reduceCtorEq, if_false]
    rw [hp] at hbase
    rw [← hbase k]
    split <;> rfl
  | some p =>
    simp only
    rw [hp] at hbase hpe hpr
    rw [get?_update, hbase k]
    have hpe' : p ≠ e := fun h => hpe (congrArg some h)
    have hpr' : p ≠ r := fun h => hpr (congrArg some h)
    by_cases hpk : p = k
    · subst hpk
      simp [hpe', hpr', Option.map_map, Function.comp_def]
    · simp [hpk]

/-- the two places of a splice: one is there, the other is there and hangs nowhere, and no link runs from one to itself
or between the two -/
structure Swap (t : Tree) (e r : NodeId) : Prop where
  present : (t.get? e).isSome
  vacant : (t.get? r).isSome
  ne : r ≠ e
  bare : t.childrenOf r = []
  notChild : r ∉ t.childrenOf e
  notParent : t.parentOf e ≠ some r
  noLoop : e ∉ t.childrenOf e
  noSelf : t.parentOf e ≠ some e

theorem Swap.get? {t : Tree} {e r : NodeId} (h : Swap t e r) :
    ∃ n, t.get? e = some ⟨n, t.parentOf e, t.childrenOf e⟩ ∧ ∀ k, (t.splice e r).get? k =
      if k = e then some ⟨n, none, []⟩
      else if k = r then (t.get? r).map fun v => ⟨v.node, t.parentOf e, t.childrenOf e⟩
      else (t.get? k).map fun v => ⟨v.node, if k ∈ t.childrenOf e then some r else v.parent,
        if t.parentOf e = some k then v.children.replace e r else v.children⟩ := by
  obtain ⟨old, he⟩ := Option.isSome_iff_exists.1 h.present
  have hp := parentOf_of_get? he
  have hc := childrenOf_of_get? he
  refine ⟨old.node, by rw [hp, hc, he], fun k => ?_⟩
  rw [hp, hc]
  exact get?_splice t he h.ne (hc ▸ h.noLoop) (hc ▸ h.notChild) (hp ▸ h.noSelf) (hp ▸ h.notParent) k

theorem parentOf_splice {t : Tree} {e r : NodeId} (h : Swap t e r) (k : NodeId) :
    (t.splice e r).parentOf k =
      if k = e then none else if k = r then t.parentOf e
      else if k ∈ t.childrenOf e ∧ (t.get? k).isSome then some r else t.parentOf k := by
  obtain ⟨n, he, hg⟩ := h.get?
  obtain ⟨v, hv⟩ := Option.isSome_iff_exists.1 h.vacant
  by_cases hke : k = e
  · subst hke; simp [parentOf, hg]
  by_cases hkr : k = r
  · subst hkr; rw [parentOf, hg]; simp [hke, hv]
  · rw [parentOf, hg]
    simp only [hke, hkr, if_false, parentOf]
    cases t.get? k with
    | none => simp
    | some w => by_cases hk : k ∈ t.childrenOf e <;> simp [hk]

theorem childrenOf_splice {t : Tree} {e r : NodeId} (h : Swap t e r) (k : NodeId) :
    (t.splice e r).childrenOf k =
      if k = e then [] else if k = r then t.childrenOf e
      else if t.parentOf e = some k then (t.childrenOf k).replace e r else t.childrenOf k := by
  obtain ⟨n, he, hg⟩ := h.get?
  obtain ⟨v, hv⟩ := Option.isSome_iff_exists.1 h.vacant
  by_cases hke : k = e
  · subst hke; simp [childrenOf, hg]
  by_cases hkr : k = r
  · subst hkr; rw [childrenOf, hg]; simp [hke, hv]
  · rw [childrenOf, hg]
    simp only [hke, hkr, if_false]
    unfold childrenOf
    cases t.get? k with
    | none => simp
    | some w => by_cases hk : t.parentOf e = some k <;> simp [hk]

theorem root_splice_eq {t : Tree} {e r : NodeId} (h : Swap t e r) :
    (t.splice e r).root = if t.parentOf e = none ∧ t.root = e then r else t.root := by
  obtain ⟨n, he, -⟩ := h.get?
  exact root_splice t he r

/-! ## The operations

Each operation that answers, in terms of the views. `touched` is what becomes of the node of a parent whose list of
children changes. -/

/-- the node of a vertex, changed at a moment if it is the vertex `p` -/
def touched (t : Tree) (p : NodeId) (now : Time) (k : NodeId) : Option Node :=
  if p = k then (t.node? k).map (Node.touch now) else t.node? k

theorem node?_withChildren (t : Tree) (p k : NodeId) (now : Time) (f : List NodeId → List NodeId) :
    (t.withChildren p now f).node? k = t.touched p now k := by
  unfold withChildren touched
  rw [node?_update, node?, Option.map_map]
  rfl

theorem parentOf_withChildren (t : Tree) (p k : NodeId) (now : Time) (f : List NodeId → List NodeId) :
    (t.withChildren p now f).parentOf k = t.parentOf k :=
  parentOf_update t p k fun _ => rfl

theorem childrenOf_withChildren (t : Tree) (p k : NodeId) (now : Time) (f : List NodeId → List NodeId) :
    (t.withChildren p now f).childrenOf k =
      if p = k ∧ (t.get? k).isSome then f (t.childrenOf k) else t.childrenOf k :=
  childrenOf_update t p k f fun _ => rfl

theorem append_eq_some {t u : Tree} {p id : NodeId} {node : Node} {now : Time}
    (h : t.append p node now = some (id, u)) :
    id = t.nextId ∧ t.isAttached p = true ∧ t.findChild p node.name = none ∧
      u = (t.push ⟨node, some p, []⟩).withChildren p now (· ++ [t.nextId]) := by
  unfold append at h
  split at h
  · cases h
  · next hc =>
    cases h
    simp only [Bool.or_eq_true, Bool.not_eq_true', not_or, Bool.not_eq_false, Bool.not_eq_true,
      Option.isSome_eq_false_iff, Option.isNone_iff_eq_none] at hc
    exact ⟨rfl, hc.1, hc.2, rfl⟩

theorem deleteIfEmpty_eq_some {t u : Tree} {id : NodeId} {now : Time} (h : t.deleteIfEmpty id now = some u) :
    ∃ dir parent, id ≠ t.root ∧ t.get? id = some ⟨.directory dir, some parent, []⟩ ∧
      u = (t.drop id).withChildren parent now (·.filter (· ≠ id)) := by
  unfold deleteIfEmpty at h
  split at h
  · cases h
  · next hr =>
    split at h
    · next dir parent hv => cases h; exact ⟨dir, parent, hr, hv, rfl⟩
    · cases h

theorem replaceWith_eq_some {t u : Tree} {e id : NodeId} {node : Node} (h : t.replaceWith e node = some (id, u)) :
    id = t.nextId ∧ t.isAttached e = true ∧
      u = if node.shadowed = some e then (t.push ⟨node, none, []⟩).splice e t.nextId
        else ((t.push ⟨node, none, []⟩).splice e t.nextId).drop e := by
  unfold replaceWith at h
  split at h
  · cases h
  · next ha => cases h; exact ⟨rfl, by simpa using ha, rfl⟩

theorem unmount_eq_some {t u : Tree} {id : NodeId} (h : t.unmount id = some u) :
    ∃ m, t.isAttached id = true ∧ t.node? id = some (.mount m) ∧ (t.get? m.shadowed).isSome ∧
      u = (t.splice id m.shadowed).drop id := by
  unfold unmount at h
  split at h
  · cases h
  · next ha =>
    split at h
    · next m p cs hv =>
      split at h
      · next hs => cases h; exact ⟨m, by simpa using ha, node?_of_get? hv, hs, rfl⟩
      · cases h
    · cases h

theorem rename_eq_some {t u : Tree} {id : NodeId} {name : String} {now : Time} (h : t.rename id name now = some u) :
    (t.get? id).isSome ∧ u = t.update id fun v => { v with node := (v.node.setName name).touch now } := by
  unfold rename at h
  split at h
  · next v hv => cases h; exact ⟨by rw [hv]; rfl, rfl⟩
  · cases h

/-! ## Whether a change is made, and the nodes after it -/

theorem node?_append {t u : Tree} {p id : NodeId} {node : Node} {now : Time} (h : t.append p node now = some (id, u))
    (k : NodeId) : u.node? k =
      if p = k then (if k = t.nextId then some node else t.node? k).map (Node.touch now)
      else if k = t.nextId then some node else t.node? k := by
  obtain ⟨-, -, -, rfl⟩ := append_eq_some h
  rw [node?_withChildren, touched, node?_push]

theorem nextId_append {t u : Tree} {p id : NodeId} {node : Node} {now : Time} (h : t.append p node now = some (id, u)) :
    u.nextId = t.nextId + 1 := by
  obtain ⟨-, -, -, rfl⟩ := append_eq_some h
  rw [withChildren, nextId_update, nextId_push]

theorem append_isSome (t : Tree) (p : NodeId) (node : Node) (now : Time) :
    (t.append p node now).isSome = (t.isAttached p && (t.findChild p node.name).isNone) := by
  rw [Tree.append]
  cases t.isAttached p with
  | false => rfl
  | true => cases t.findChild p node.name <;> rfl

theorem rename_isSome (t : Tree) (id : NodeId) (name : String) (now : Time) :
    (t.rename id name now).isSome = (t.node? id).isSome := by
  rw [Tree.rename, node?_isSome]
  cases t.get? id <;> rfl

theorem replaceWith_isSome (t : Tree) (id : NodeId) (node : Node) :
    (t.replaceWith id node).isSome = t.isAttached id := by
  rw [Tree.replaceWith]
  cases t.isAttached id <;> rfl

theorem deleteIfEmpty_isSome_iff {t : Tree} {id : NodeId} {now : Time} : (t.deleteIfEmpty id now).isSome ↔
    id ≠ t.root ∧ (∃ d, t.node? id = some (.directory d)) ∧ (t.parentOf id).isSome ∧ t.childrenOf id = [] := by
  constructor
  · intro h
    obtain ⟨u, hu⟩ := Option.isSome_iff_exists.1 h
    obtain ⟨d, p, hroot, hget, -⟩ := deleteIfEmpty_eq_some hu
    exact ⟨hroot, ⟨d, node?_of_get? hget⟩, by rw [parentOf_of_get? hget]; rfl, childrenOf_of_get? hget⟩
  · rintro ⟨hroot, ⟨d, hd⟩, hp, hc⟩
    obtain ⟨p, hp⟩ := Option.isSome_iff_exists.1 hp
    have hget := get?_of_node? hd
    rw [hp, hc] at hget
    rw [deleteIfEmpty, if_neg hroot, hget]
    rfl

theorem unmount_isSome {t : Tree} {id : NodeId} : (t.unmount id).isSome ↔
    t.isAttached id = true ∧ ∃ m, t.node? id = some (.mount m) ∧ (t.get? m.shadowed).isSome := by
  constructor
  · intro h
    obtain ⟨u, hu⟩ := Option.isSome_iff_exists.1 h
    obtain ⟨m, hid, hm, hs, -⟩ := unmount_eq_some hu
    exact ⟨hid, m, hm, hs⟩
  · rintro ⟨hid, m, hm, hs⟩
    rw [Tree.unmount, hid, get?_of_node? hm]
    simp only [hs]
    rfl

theorem node?_delete {t u : Tree} {id : NodeId} {now : Time} (h : t.deleteIfEmpty id now = some u) :
    ∃ p, t.parentOf id = some p ∧ ∀ k, u.node? k =
      if p = k then (if id = k then none else t.node? k).map (Node.touch now)
      else if id = k then none else t.node? k := by
  obtain ⟨d, p, -, hget, rfl⟩ := deleteIfEmpty_eq_some h
  refine ⟨p, parentOf_of_get? hget, fun k => ?_⟩
  rw [node?_withChildren, touched, node?_drop]

theorem nextId_delete {t u : Tree} {id : NodeId} {now : Time} (h : t.deleteIfEmpty id now = some u) :
    u.nextId = t.nextId := by
  obtain ⟨d, p, -, -, rfl⟩ := deleteIfEmpty_eq_some h
  rw [withChildren, nextId_update, nextId_drop]

theorem node?_rename {t u : Tree} {id : NodeId} {name : String} {now : Time} (h : t.rename id name now = some u)
    (k : NodeId) : u.node? k =
      if id = k then (t.node? k).map fun x => (x.setName name).touch now else t.node? k := by
  obtain ⟨-, rfl⟩ := rename_eq_some h
  rw [node?_update, node?, Option.map_map]
  rfl

theorem nextId_rename {t u : Tree} {id : NodeId} {name : String} {now : Time} (h : t.rename id name now = some u) :
    u.nextId = t.nextId := by
  obtain ⟨-, rfl⟩ := rename_eq_some h
  rw [nextId_update]

theorem node?_replaceWith {t u : Tree} {e id : NodeId} {node : Node} (h : t.replaceWith e node = some (id, u))
    (k : NodeId) : u.node? k =
      if e = k ∧ node.shadowed ≠ some e then none else if k = t.nextId then some node else t.node? k := by
  obtain ⟨-, -, rfl⟩ := replaceWith_eq_some h
  by_cases hs : node.shadowed = some e
  · rw [if_pos hs, if_neg fun hk => hk.2 hs, node?_splice, node?_push]
  · rw [if_neg hs, node?_drop, node?_splice, node?_push]
    simp only [ne_eq, hs, not_false_iff, and_true]

theorem node?_replace {t u : Tree} {e id : NodeId} {m : MountNode} (hm : m.shadowed = e)
    (h : t.replaceWith e (.mount m) = some (id, u)) (k : NodeId) :
    u.node? k = if k = t.nextId then some (.mount m) else t.node? k := by
  rw [node?_replaceWith h, if_neg fun hk => hk.2 (congrArg some hm)]

theorem nextId_replace {t u : Tree} {e id : NodeId} {node : Node} (h : t.replaceWith e node = some (id, u)) :
    u.nextId = t.nextId + 1 := by
  obtain ⟨-, -, rfl⟩ := replaceWith_eq_some h
  split
  · rw [nextId_splice, nextId_push]
  · rw [nextId_drop, nextId_splice, nextId_push]

theorem node?_unmount {t u : Tree} {id : NodeId} (h : t.unmount id = some u) (k : NodeId) :
    u.node? k = if id = k then none else t.node? k := by
  obtain ⟨m, -, -, -, rfl⟩ := unmount_eq_some h
  rw [node?_drop, node?_splice]

theorem nextId_unmount {t u : Tree} {id : NodeId} (h : t.unmount id = some u) : u.nextId = t.nextId := by
  obtain ⟨m, -, -, -, rfl⟩ := unmount_eq_some h
  rw [nextId_drop, nextId_splice]

end MountSpace.Tree

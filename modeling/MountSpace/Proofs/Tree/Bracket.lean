/-
Two trees side by side: one with a mount over a vertex, and one without it. Where the first has the mount, the second
has the vertex; everything else is the same, but for the numbers, which are one higher from the number of the mount on,
and for the times.

Two maps go from the second tree to the first. What a number stands for in a node, a covered vertex or the serial number
of a record, is shifted. A link to the vertex leads to the mount instead. The two differ at the vertex alone, so a path
that does not lead through the vertex leads to the same place in both (`Bracketed.resolve`).
-/
import MountSpace.Proofs.Tree.Shifts

namespace MountSpace

namespace Tree

/-! ## Two trees -/

/-- the tree `u` has the mount `m` under the number `n` where the tree `t` has the vertex `e` -/
structure Bracketed (n e : NodeId) (m : MountNode) (R : Time → Time → Prop) (t u : Tree) : Prop where
  early : e < n
  late : n ≤ t.nextId
  root : u.root = detour n e t.root
  next : u.nextId = t.nextId + 1
  node : ∀ k, Option.Rel (Node.Alike n R) (t.node? k) (u.node? (shift n k))
  cover : u.node? n = some (.mount m)
  named : t.name? e = some m.name
  children : ∀ k, u.childrenOf (detour n e k) = (t.childrenOf k).map (detour n e)
  bare : u.childrenOf e = []

namespace Bracketed

variable {n e : NodeId} {m : MountNode} {R : Time → Time → Prop} {t u : Tree} (h : t.Bracketed n e m R u)
include h

theorem ne_nextId : t.nextId ≠ e := fun he => Nat.lt_irrefl _ (Nat.lt_of_lt_of_le h.early (he ▸ h.late))

theorem nextId_eq : u.nextId = shift n t.nextId := by rw [h.next, shift_of_le h.late]

theorem nextId_detour : u.nextId = detour n e t.nextId := by rw [detour_of_ne h.ne_nextId, h.nextId_eq]

theorem name?_shift (k : NodeId) : u.name? (shift n k) = t.name? k := by
  have hnode := h.node k
  rw [name?, name?]
  generalize t.node? k = x at hnode ⊢
  generalize u.node? (shift n k) = y at hnode ⊢
  cases hnode with
  | none => rfl
  | some hxy => exact congrArg some hxy.name

/-- whatever stands in the place of a vertex bears its name -/
theorem name?_detour (k : NodeId) : u.name? (detour n e k) = t.name? k := by
  by_cases hk : k = e
  · subst hk
    rw [detour_self, name?, h.cover, h.named]
    rfl
  · rw [detour_of_ne hk]
    exact h.name?_shift k

theorem node_eq_some {k : NodeId} {x : Node} (hx : t.node? k = some x) :
    ∃ y, u.node? (shift n k) = some y ∧ x.Alike n R y := by
  have hnode := h.node k
  rw [hx] at hnode
  cases hu : u.node? (shift n k) with
  | none =>
    rw [hu] at hnode
    cases hnode
  | some y =>
    rw [hu] at hnode
    cases hnode with
    | some hxy => exact ⟨y, rfl, hxy⟩

theorem node_isSome (k : NodeId) : (u.node? (shift n k)).isSome = (t.node? k).isSome := isSome_of_rel (h.node k)

theorem node_eq_none {k : NodeId} (hx : t.node? k = none) : u.node? (shift n k) = none := by
  have hsome := h.node_isSome k
  rw [hx] at hsome
  exact Option.isSome_eq_false_iff.1 hsome |> Option.isNone_iff_eq_none.1

/-- a name leads to the same child in both -/
theorem findChild (k : NodeId) (name : String) :
    u.findChild (detour n e k) name = (t.findChild k name).map (detour n e) := by
  have hnamed : u.isNamed name ∘ detour n e = t.isNamed name := by
    funext c
    rw [Bool.eq_iff_iff]
    show u.isNamed name (detour n e c) = true ↔ _
    rw [isNamed_iff, isNamed_iff, key?, key?, h.name?_detour]
  rw [Tree.findChild, h.children, List.find?_map, hnamed]
  rfl

section Links

variable (ht : t.Linked) (hu : u.Linked)
include ht hu

theorem parentOf (k : NodeId) : u.parentOf (detour n e k) = (t.parentOf k).map (detour n e) := by
  refine parentOf_map ht hu detour_inj h.children (fun q => ?_) k
  by_cases hq : q = e
  · exact .inr (hq ▸ h.bare)
  · exact .inl (exists_detour h.early hq)

theorem isAttached (k : NodeId) : u.isAttached (detour n e k) = t.isAttached k := by
  rw [Bool.eq_iff_iff, isAttached_iff, isAttached_iff, h.root, detour_inj, h.parentOf ht hu]
  simp

end Links

end Bracketed

/-! ## Walks in both trees -/

theorem walk_real_congr (t u : Tree) (ext : External) (path : AbsolutePath) (names walked : List String) (name : String)
    (at_ : ExternalPath) :
    t.walk ext path walked (.real name at_) names = u.walk ext path walked (.real name at_) names := by
  induction names generalizing walked name at_ with
  | nil => rfl
  | cons next rest ih =>
    have same : t.step ext path walked next (.real name at_) = u.step ext path walked next (.real name at_) := rfl
    rw [walk, walk, same]
    cases hs : u.step ext path walked next (.real name at_) with
    | error e => rfl
    | ok place =>
      have hreal : place.nodeId? = none := walk_real_nodeId (walk_cons_eq_ok.2 ⟨place, hs, rfl⟩ : u.walk ext path walked
        (.real name at_) [next] = .ok place)
      cases place with
      | directory id d => cases hreal
      | mount id m => cases hreal
      | real n a => exact ih (walked ++ [next]) n a

/-- outside the tree the numbers do not matter -/
theorem agrees_real (t u : Tree) (n : NodeId) (R : Time → Time → Prop) (ext : External) (path : AbsolutePath)
    (names walked : List String) (name : String) (at_ : ExternalPath) :
    Agrees (Place.Alike n R) (t.walk ext path walked (.real name at_) names)
      (u.walk ext path walked (.real name at_) names) := by
  rw [walk_real_congr u t]
  cases hw : t.walk ext path walked (.real name at_) names with
  | error e => exact .error e
  | ok place =>
    have hreal := walk_real_nodeId hw
    cases place with
    | directory id d => cases hreal
    | mount id m => cases hreal
    | real n a => exact .ok .real

namespace Bracketed

variable {n e : NodeId} {m : MountNode} {R : Time → Time → Prop} {t u : Tree} (h : t.Bracketed n e m R u)
include h

/-- what names find, they find in both, if they do not lead through the vertex -/
theorem finds {id last : NodeId} {names : List String} (hf : t.Finds id names last)
    (past : ∀ before k, before <+: names → before ≠ names → t.Finds id before k → k ≠ e) :
    u.Finds (detour n e id) names (detour n e last) := by
  induction hf with
  | here => exact .here
  | @down id c last d name rest node child on ih =>
    have hid : id ≠ e := past [] id List.nil_prefix (List.cons_ne_nil _ _).symm .here
    obtain ⟨y, hy, halike⟩ := h.node_eq_some node
    cases halike with
    | directory ht =>
      rw [← detour_of_ne hid] at hy
      have hchild : u.findChild (detour n e id) name = some (detour n e c) := by rw [h.findChild, child]; rfl
      refine .down hy hchild (ih fun before k hb hne hk => ?_)
      exact past (name :: before) k (List.cons_prefix_cons.2 ⟨rfl, hb⟩) (fun heq => hne (List.cons.inj heq).2)
        (.down node child hk)

/-- a path that does not lead through the vertex is walked alike -/
theorem walk {id : NodeId} {names : List String} {x y : Node} (hx : t.node? id = some x) (halike : x.Alike n R y)
    (past : ∀ before k, before <+: names → t.Finds id before k → k ≠ e) (ext : External) (path : AbsolutePath)
    (walked : List String) : Agrees (Place.Alike n R) (t.walk ext path walked (.ofNode id x) names)
      (u.walk ext path walked (.ofNode (shift n id) y) names) := by
  induction names generalizing id x y walked with
  | nil => exact .ok (halike.place id)
  | cons name rest ih =>
    have hid : id ≠ e := past [] id List.nil_prefix .here
    rw [Tree.walk, Tree.walk]
    cases halike with
    | directory ht =>
      simp only [Place.ofNode, step, child?]
      have hchild := h.findChild id name
      rw [detour_of_ne hid] at hchild
      cases hc : t.findChild id name with
      | none =>
        rw [hc] at hchild
        rw [hchild]
        exact .error _
      | some c =>
        rw [hc] at hchild
        have hce : c ≠ e := past [name] c ⟨rest, rfl⟩ (.down hx hc .here)
        rw [hchild, Option.map_some, detour_of_ne hce, Option.bind_some, Option.bind_some]
        cases hnc : t.node? c with
        | none =>
          rw [h.node_eq_none hnc]
          exact .error _
        | some x' =>
          obtain ⟨y', hy', halike'⟩ := h.node_eq_some hnc
          rw [hy']
          refine ih hnc halike' (fun before k hb hk => ?_) (walked ++ [name])
          exact past (name :: before) k (List.cons_prefix_cons.2 ⟨rfl, hb⟩) (.down hx hc hk)
    | @mount own record times times' shadowed ht =>
      have same : u.step ext path walked name (.mount (shift n id) ⟨own, record.shift n, times', shift n shadowed⟩) =
          t.step ext path walked name (.mount id ⟨own, record, times, shadowed⟩) := rfl
      simp only [Place.ofNode]
      rw [same]
      cases hs : t.step ext path walked name (.mount id ⟨own, record, times, shadowed⟩) with
      | error refused => exact .error refused
      | ok place =>
        obtain ⟨real, at_, rfl⟩ := step_mount_eq_ok hs
        exact agrees_real t u n R ext path rest (walked ++ [name]) real at_

/-- **A path that does not lead through the vertex leads to the same place in both trees.** -/
theorem resolve (hroot : t.root ≠ e) {path : AbsolutePath}
    (past : ∀ before k, before <+: path.names → t.Finds t.root before k → k ≠ e) (ext : External) :
    Agrees (Place.Alike n R) (t.resolve ext path) (u.resolve ext path) := by
  rw [Tree.resolve, Tree.resolve, h.root, detour_of_ne hroot]
  cases hx : t.node? t.root with
  | none =>
    rw [h.node_eq_none hx]
    exact .error _
  | some x =>
    obtain ⟨y, hy, halike⟩ := h.node_eq_some hx
    rw [hy]
    exact h.walk hx halike past ext path []

theorem resolveOrMissing (hroot : t.root ≠ e) {path : AbsolutePath}
    (past : ∀ before k, before <+: path.names → t.Finds t.root before k → k ≠ e) (ext : External) :
    Agrees (Option.Rel (Place.Alike n R)) (t.resolveOrMissing ext path) (u.resolveOrMissing ext path) := by
  have hagrees := h.resolve hroot past ext
  rw [Tree.resolveOrMissing, Tree.resolveOrMissing]
  generalize t.resolve ext path = outcome at hagrees ⊢
  generalize u.resolve ext path = outcome' at hagrees ⊢
  cases hagrees with
  | ok halike => exact .ok (.some halike)
  | error refused =>
    cases refused with
    | notFound what => exact .ok .none
    | _ => exact .error _

end Bracketed

end Tree

end MountSpace

/-
An arena seen as an outline: the layout of its vertices, each vertex labelled with its name and with what is mounted
there. The stack of a vertex is read along the chain of vertices that its mounts cover; a mount covers an older vertex,
so the chain ends.

`Stacked` adds to the invariant of the arena what makes a chain one node: each mount is newer than the vertex it covers
and bears its name. `collapse_graft` is the step of the simulation: a change of the layout at the vertex a path leads to
is a change of the outline at that path.
-/
import MountSpace.Proofs.Outline.Reference
import MountSpace.Proofs.Tree.Calls
import MountSpace.Proofs.Tree.Layout
import Mathlib.Data.List.Find

namespace MountSpace

/-- the place a mount shows and the vertex it covers -/
def Node.mounted : Node → Option (ExternalPath × NodeId)
  | directory _ => none
  | mount m => some (m.record.source, m.shadowed)

@[simp] theorem Node.name_touch (now : Time) (n : Node) : (n.touch now).name = n.name := by cases n <;> rfl

@[simp] theorem Node.mounted_touch (now : Time) (n : Node) : (n.touch now).mounted = n.mounted := by cases n <;> rfl

namespace Tree

/-! ## Labels -/

/-- the mounts at a vertex, the newest first -/
def stackOf (t : Tree) (id : NodeId) : List ExternalPath :=
  match t.node? id with
  | some (.mount m) => m.record.source :: if m.shadowed < id then t.stackOf m.shadowed else []
  | _ => []
termination_by id

/-- the name of a vertex and the mounts at it -/
def labelOf (t : Tree) (id : NodeId) : Label := ⟨((t.node? id).map Node.name).getD "", t.stackOf id⟩

/-- the outline from a vertex downwards -/
def outlineAt (t : Tree) (id : NodeId) : Outline := (t.layoutAt t.nextId id).map t.labelOf

/-- the outline of a tree, every chain of covered vertices one node -/
def collapse (t : Tree) : Outline := t.outlineAt t.root

theorem collapse_eq (t : Tree) : t.collapse = t.layout.map t.labelOf := rfl

theorem stackOf_eq_nil {t : Tree} {id : NodeId} (h : (t.node? id).bind Node.mounted = none) : t.stackOf id = [] := by
  rw [stackOf]
  cases hn : t.node? id with
  | none => rfl
  | some n =>
    cases n with
    | directory d => rfl
    | mount m => rw [hn] at h; cases h

theorem stackOf_eq_cons {t : Tree} {id s : NodeId} {source : ExternalPath}
    (h : (t.node? id).bind Node.mounted = some (source, s)) (hs : s < id) :
    t.stackOf id = source :: t.stackOf s := by
  rw [stackOf]
  cases hn : t.node? id with
  | none => rw [hn] at h; cases h
  | some n =>
    cases n with
    | directory d => rw [hn] at h; cases h
    | mount m =>
      rw [hn] at h
      cases h
      simp only [if_pos hs]

/-- the arena is sound, and every mount is newer than the vertex it covers and bears its name -/
structure Stacked (t : Tree) : Prop extends Sound t where
  older : ∀ a m, t.node? a = some (.mount m) → m.shadowed < a
  alike : ∀ a m, t.node? a = some (.mount m) → (t.node? m.shadowed).map Node.name = some m.name

/-- two arenas with the same names and the same mounts, but for the vertex `x` -/
def AgreeBut (x : NodeId) (t u : Tree) : Prop :=
  ∀ k, k ≠ x → (u.node? k).map (fun n => (n.name, n.mounted)) = (t.node? k).map fun n => (n.name, n.mounted)

namespace AgreeBut

variable {x : NodeId} {t u : Tree} (h : AgreeBut x t u)
include h

theorem names {k : NodeId} (hk : k ≠ x) : (u.node? k).map Node.name = (t.node? k).map Node.name := by
  have := congrArg (Option.map Prod.fst) (h k hk)
  rwa [Option.map_map, Option.map_map] at this

theorem mounted {k : NodeId} (hk : k ≠ x) : (u.node? k).bind Node.mounted = (t.node? k).bind Node.mounted := by
  have := congrArg (·.bind Prod.snd) (h k hk)
  simpa [Option.bind_map, Function.comp_def] using this

/-- a mount of the one arena is a mount of the other, over the same vertex and of the same name -/
theorem mount {k : NodeId} (hk : k ≠ x) {m : MountNode} (hm : u.node? k = some (.mount m)) :
    ∃ m', t.node? k = some (.mount m') ∧ m'.shadowed = m.shadowed ∧ m'.name = m.name := by
  have hk' := h k hk
  have hmk := h.mounted hk
  rw [hm] at hk' hmk
  cases hn : t.node? k with
  | none => rw [hn] at hmk; cases hmk
  | some n =>
    rw [hn] at hk' hmk
    cases n with
    | directory d => cases hmk
    | mount m' =>
      simp only [Option.map_some, Option.some.injEq, Prod.mk.injEq, Node.mounted] at hk'
      exact ⟨m', rfl, hk'.2.2.symm, hk'.1.symm⟩

/-- what no mount covers shows in no other stack -/
theorem stackOf (hx : ∀ a m, t.node? a = some (.mount m) → m.shadowed ≠ x) {k : NodeId} (hk : k ≠ x) :
    u.stackOf k = t.stackOf k := by
  induction k using Nat.strong_induction_on with
  | _ k ih =>
    have hmk := h.mounted hk
    rw [Tree.stackOf, Tree.stackOf]
    cases hu : u.node? k with
    | none =>
      cases ht : t.node? k with
      | none => rfl
      | some n => cases n with
        | directory d => rfl
        | mount m => rw [hu, ht] at hmk; cases hmk
    | some n => cases n with
      | directory d =>
        cases ht : t.node? k with
        | none => rfl
        | some n => cases n with
          | directory d => rfl
          | mount m => rw [hu, ht] at hmk; cases hmk
      | mount m =>
        obtain ⟨m', ht, hshadow, -⟩ := h.mount hk hu
        rw [hu, ht] at hmk
        have hsource : m.record.source = m'.record.source := congrArg Prod.fst (Option.some.inj hmk)
        simp only [ht, hsource, hshadow]
        split
        · next hlt => rw [ih m.shadowed hlt (hshadow ▸ hx k m' ht)]
        · rfl

theorem labelOf (hx : ∀ a m, t.node? a = some (.mount m) → m.shadowed ≠ x) {k : NodeId} (hk : k ≠ x) :
    u.labelOf k = t.labelOf k := by
  rw [Tree.labelOf, Tree.labelOf, h.stackOf hx hk, h.names hk]

/-- chains of mounts stay as they are when a vertex comes, goes or changes that no mount covers -/
theorem stacked (ht : t.Stacked) (hu : u.Sound) (hx : ∀ a m, t.node? a = some (.mount m) → m.shadowed ≠ x)
    (hnew : ∀ m, u.node? x = some (.mount m) →
      m.shadowed < x ∧ (u.node? m.shadowed).map Node.name = some m.name) : u.Stacked := by
  refine ⟨hu, fun a m hm => ?_, fun a m hm => ?_⟩
  · by_cases ha : a = x
    · subst ha; exact (hnew m hm).1
    · obtain ⟨m', hm', hshadow, -⟩ := h.mount ha hm
      rw [← hshadow]
      exact ht.older a m' hm'
  · by_cases ha : a = x
    · subst ha; exact (hnew m hm).2
    · obtain ⟨m', hm', hshadow, hname⟩ := h.mount ha hm
      rw [← hshadow, ← hname, h.names (hx a m' hm')]
      exact ht.alike a m' hm'

end AgreeBut

/-! ## Paths in a layout -/

/-- the subtree that names lead to, the first child of each name, through vertices without a mount -/
def follow (t : Tree) : List String → Rose NodeId → Option (Rose NodeId)
  | [], l => some l
  | name :: rest, l =>
    if t.stackOf l.label = [] then
      (l.children.find? fun c => Text.sameName (t.labelOf c.label).name name).bind (t.follow rest)
    else none

theorem follow_append (t : Tree) (before later : List String) (l : Rose NodeId) :
    t.follow (before ++ later) l = (t.follow before l).bind (t.follow later) := by
  induction before generalizing l with
  | nil => rfl
  | cons name rest ih =>
    rw [List.cons_append, follow, follow]
    split
    · cases l.children.find? fun c => Text.sameName (t.labelOf c.label).name name with
      | none => rfl
      | some c => exact ih c
    · rfl

theorem follow_cons_eq_some {t : Tree} {name : String} {rest : List String} {l s : Rose NodeId}
    (h : t.follow (name :: rest) l = some s) : t.stackOf l.label = [] ∧
      ∃ c, l.children.find? (fun c => Text.sameName (t.labelOf c.label).name name) = some c ∧
        t.follow rest c = some s := by
  rw [follow] at h
  split at h
  · next hstack => exact ⟨hstack, Option.bind_eq_some_iff.1 h⟩
  · cases h

theorem follow_mem_subtrees {t : Tree} {names : List String} {l s : Rose NodeId} (h : t.follow names l = some s) :
    s ∈ l.subtrees := by
  induction names generalizing l with
  | nil => cases h; exact Rose.self_mem_subtrees _
  | cons name rest ih =>
    obtain ⟨-, c, hc, hs⟩ := follow_cons_eq_some h
    cases l with
    | node a cs => exact Rose.mem_subtrees_node.2 (.inr ⟨c, List.mem_of_find?_eq_some hc, ih hs⟩)

end Tree

theorem modifyFirst_append_cons {α : Type} {p : α → Bool} {a : α} {before : List α} (hb : ∀ b ∈ before, p b = false)
    (ha : p a = true) (f : α → α) (later : List α) :
    modifyFirst p f (before ++ a :: later) = before ++ f a :: later := by
  induction before with
  | nil => rw [List.nil_append, modifyFirst, if_pos ha]; rfl
  | cons b rest ih =>
    rw [List.forall_mem_cons] at hb
    rw [List.cons_append, modifyFirst, hb.1, if_neg Bool.false_ne_true, ih hb.2]
    rfl

namespace Tree

/-- below a vertex reached by names, a graft is a change at the end of these names -/
theorem map_graft_follow {t u : Tree} {names : List String} {l s : Rose NodeId} {f : Rose NodeId → Rose NodeId}
    {g : Outline → Outline} (hd : l.labels.Nodup) (hs : t.follow names l = some s)
    (hl : ∀ k ∈ l.labels, k ∉ s.labels → u.labelOf k = t.labelOf k) (hf : (f s).map u.labelOf = g (s.map t.labelOf)) :
    (l.graft s.label f).map u.labelOf = Outline.modify g names (l.map t.labelOf) := by
  induction names generalizing l with
  | nil => cases hs; rw [Rose.graft_label]; exact hf
  | cons name rest ih =>
    obtain ⟨-, c, hc, hcs⟩ := follow_cons_eq_some hs
    cases l with
    | node a cs =>
      obtain ⟨hca, before, later, hcut, hbefore⟩ := List.find?_eq_some_iff_append.1 hc
      have hcut : cs = before ++ c :: later := hcut
      subst hcut
      obtain ⟨htop, hchild, hapart⟩ := Rose.nodup_labels_node.1 hd
      have hcm : c ∈ before ++ c :: later := List.mem_append_right _ List.mem_cons_self
      have hsub : ∀ k ∈ s.labels, k ∈ c.labels := fun k => Rose.labels_subset (follow_mem_subtrees hcs)
      have hsc : s.label ∈ c.labels := hsub _ s.label_mem_labels
      -- a child off the path holds no vertex of `s`, so neither the graft nor the labels change it
      have hoff : ∀ d ∈ before ++ c :: later, List.Disjoint d.labels c.labels →
          (d.graft s.label f).map u.labelOf = d.map t.labelOf := by
        intro d hdm hdc
        rw [Rose.graft_of_not_mem fun hx => hdc hx hsc]
        refine Rose.map_congr fun k hk => hl k ?_ fun hks => hdc hk (hsub k hks)
        exact Rose.mem_labels_node.2 (.inr ⟨d, hdm, hk⟩)
      have hon : (c.graft s.label f).map u.labelOf = Outline.modify g rest (c.map t.labelOf) :=
        ih (hchild c hcm) hcs fun k hk => hl k (Rose.mem_labels_node.2 (.inr ⟨c, hcm, hk⟩))
      rw [List.pairwise_append, List.pairwise_cons] at hapart
      obtain ⟨-, ⟨hlater, -⟩, hbetween⟩ := hapart
      have hne : a ≠ s.label := fun he => htop c hcm (he ▸ hsc)
      have hlabel : u.labelOf a = t.labelOf a :=
        hl a (Rose.mem_labels_node.2 (.inl rfl)) fun hx => htop c hcm (hsub a hx)
      have hb : before.map (Rose.map u.labelOf ∘ Rose.graft s.label f) = before.map (Rose.map t.labelOf) :=
        List.map_congr_left fun d hdm =>
          hoff d (List.mem_append_left _ hdm) (hbetween d hdm c List.mem_cons_self)
      have hr : later.map (Rose.map u.labelOf ∘ Rose.graft s.label f) = later.map (Rose.map t.labelOf) :=
        List.map_congr_left fun d hdm =>
          hoff d (List.mem_append_right _ (List.mem_cons_of_mem _ hdm)) fun k hkd hkc => hlater d hdm hkc hkd
      have hskip : ∀ o ∈ before.map (Rose.map t.labelOf), Outline.isNamed name o = false := by
        intro o ho
        obtain ⟨d, hdm, rfl⟩ := List.mem_map.1 ho
        have hdn := hbefore d hdm
        rw [Bool.not_eq_true'] at hdn
        rw [Outline.isNamed, Rose.label_map]
        exact hdn
      have hfound : Outline.isNamed name (c.map t.labelOf) = true := by
        rw [Outline.isNamed, Rose.label_map]
        exact hca
      rw [Rose.graft_node, if_neg hne, Rose.map_node, Rose.map_node, Outline.modify, hlabel]
      simp only [Rose.label_node, Rose.children_node, List.map_append, List.map_cons, List.map_map]
      rw [modifyFirst_append_cons hskip hfound, hb, hr, hon]

/-- **A step of the simulation.** A change of the layout at the vertex that a path leads to is a change of the outline
at that path. -/
theorem collapse_graft {t u : Tree} (ht : t.Linked) {names : List String} {s : Rose NodeId}
    {f : Rose NodeId → Rose NodeId} {g : Outline → Outline} (hs : t.follow names t.layout = some s)
    (hu : u.layout = t.layout.graft s.label f)
    (hl : ∀ k ∈ t.layout.labels, k ∉ s.labels → u.labelOf k = t.labelOf k)
    (hf : (f s).map u.labelOf = g (s.map t.labelOf)) : u.collapse = t.collapse.modify g names := by
  rw [collapse_eq, collapse_eq, hu]
  exact map_graft_follow ht.nodup_layout hs hl hf

end Tree

end MountSpace

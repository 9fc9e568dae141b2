/-
What each change of a tree does to its outline. The vertex a path leads to is changed in the arena, the node at the same
path in the outline:
- `append_collapse`: a new directory is one more child;
- `delete_collapse`: an empty directory is one child less;
- `rename_collapse`: another name;
- `mount_collapse`: a mount in a vertex's place is a push on its stack;
- `unmount_collapse`: the covered vertex back in its place is a pop.
Each keeps the arena stacked. The layouts change by a graft at one vertex, in place for the first three and with another
vertex at the top for the last two.
-/
import MountSpace.Proofs.Outline.Resolve

namespace MountSpace

theorem Rose.graft_id {α : Type} [DecidableEq α] (x : α) (t : Rose α) : t.graft x (fun s => s) = t := by
  induction t with
  | node a cs ih =>
    rw [Rose.graft_node]
    split
    · rfl
    · rw [List.map_congr_left ih, List.map_id']

namespace Tree

/-! ## Layouts -/

section Layout

variable {t u : Tree} (ht : t.Linked) (hu : u.Linked)
include ht hu

/-- lists of children changed at one vertex, which stays where it is -/
theorem layout_graft {p : NodeId} {f : Rose NodeId → Rose NodeId} (hroot : u.root = t.root)
    (hf : ∀ s, (f s).label = s.label)
    (hc : ∀ k, t.isAttached k = true → k ≠ p → u.childrenOf k = t.childrenOf k)
    (hx : ∀ s ∈ t.layout.subtrees, s.label = p → u.Lays (f s)) : u.layout = t.layout.graft p f := by
  have hlabel : ∀ c : Rose NodeId, (c.graft p f).label = c.label := fun c => by
    rw [Rose.label_graft, hf, ite_self]
  refine (hu.eq_layout (lays_graft (fun s hs hsp => ?_) hx) ?_).symm
  · have hsa := ht.attached_of_mem_labels ht.lays_layout (attached_layout t) (List.mem_map_of_mem hs)
    rw [hc s.label hsa hsp, ht.lays_layout s hs]
    exact List.map_congr_left fun c _ => (hlabel c).symm
  · rw [hlabel, label_layout, hroot]

omit hu in
/-- the children of a vertex are right, and what is below them has not changed -/
theorem lays_of_unchanged {p : NodeId} (hc : ∀ k, t.isAttached k = true → k ≠ p → u.childrenOf k = t.childrenOf k)
    {s : Rose NodeId} (hs : s ∈ t.layout.subtrees) (hsp : s.label = p) : ∀ c ∈ s.children, u.Lays c := by
  intro c hcm
  have hsl := ht.lays_layout.subtree hs
  have hsa : t.isAttached s.label = true :=
    ht.attached_of_mem_labels ht.lays_layout (attached_layout t) (List.mem_map_of_mem hs)
  cases s with
  | node a cs =>
    have hnd := Rose.nodup_labels_node.1 (ht.nodup_of_lays hsl hsa)
    refine ((lays_node.1 hsl).2 c hcm).congr fun k hk => ?_
    have hka : t.isAttached k = true :=
      ht.attached_of_mem_labels hsl hsa (Rose.mem_labels_node.2 (.inr ⟨c, hcm, hk⟩))
    refine hc k hka fun hkp => hnd.1 c hcm ?_
    have hap : a = p := hsp
    rw [hap, ← hkp]
    exact hk

/-- another vertex in the place of `e`, with its children -/
theorem layout_relabel {e r : NodeId} (hroot : u.root = if t.root = e then r else t.root)
    (hc : ∀ k, t.isAttached k = true → k ≠ e →
      u.childrenOf k = (t.childrenOf k).map fun c => if c = e then r else c)
    (hr : u.childrenOf r = t.childrenOf e) :
    u.layout = t.layout.graft e fun s => .node r s.children := by
  have hlabel : ∀ c : Rose NodeId, (c.graft e fun s => .node r s.children).label = if c.label = e then r else c.label :=
    fun c => Rose.label_graft ..
  refine (hu.eq_layout (lays_graft (fun s hs hse => ?_) fun s hs hse => ?_) ?_).symm
  · have hsa := ht.attached_of_mem_labels ht.lays_layout (attached_layout t) (List.mem_map_of_mem hs)
    rw [hc s.label hsa hse, ht.lays_layout s hs, List.map_map]
    exact List.map_congr_left fun c _ => (hlabel c).symm
  · have hsl := ht.lays_layout.subtree hs
    have hsa : t.isAttached s.label = true :=
      ht.attached_of_mem_labels ht.lays_layout (attached_layout t) (List.mem_map_of_mem hs)
    refine lays_node.2 ⟨by rw [hr, ← hse]; exact hsl s s.self_mem_subtrees, fun c hcm => ?_⟩
    cases s with
    | node a cs =>
      obtain ⟨htop, -, -⟩ := Rose.nodup_labels_node.1 (ht.nodup_of_lays hsl hsa)
      obtain rfl : a = e := hse
      -- below `e` no list of children holds `e`, so none has changed
      have hcl := (lays_node.1 hsl).2 c hcm
      have hnot : ∀ k ∈ c.labels, k ≠ a := fun k hk hka => htop c hcm (hka ▸ hk)
      intro v hv
      have hva : t.isAttached v.label = true := ht.attached_of_mem_labels hsl hsa
        (Rose.mem_labels_node.2 (.inr ⟨c, hcm, List.mem_map_of_mem hv⟩))
      rw [hc v.label hva (hnot _ (List.mem_map_of_mem hv)), hcl v hv, List.map_map]
      refine List.map_congr_left fun d hd => if_neg (hnot _ (Rose.labels_subset hv ?_))
      cases v with
      | node b ds => exact Rose.mem_labels_node.2 (.inr ⟨d, hd, d.label_mem_labels⟩)
  · rw [hlabel, label_layout, hroot]

end Layout

/-- without the first child of a name: in the layout by its number, in the outline by its name -/
theorem map_dropChild {t u : Tree} {p s : Rose NodeId} {name : String} (hnd : p.labels.Nodup)
    (hfind : (p.children.find? fun c => Text.sameName (t.labelOf c.label).name name) = some s)
    (hkeep : ∀ k, k ≠ s.label → u.labelOf k = t.labelOf k) :
    (Rose.node p.label (p.children.filter (·.label ≠ s.label))).map u.labelOf =
      Outline.dropChild name (p.map t.labelOf) := by
  obtain ⟨hnamed, before, later, hcut, hbefore⟩ := List.find?_eq_some_iff_append.1 hfind
  cases p with
  | node a cs =>
    obtain rfl : cs = before ++ s :: later := hcut
    obtain ⟨htop, -, hapart⟩ := Rose.nodup_labels_node.1 hnd
    rw [List.pairwise_append, List.pairwise_cons] at hapart
    obtain ⟨-, ⟨hlater, -⟩, hbetween⟩ := hapart
    -- the children on either side stay as they are
    have hothers : ∀ cs : List (Rose NodeId), (∀ c ∈ cs, s.label ∉ c.labels) →
        (cs.filter (·.label ≠ s.label)).map (Rose.map u.labelOf) = cs.map (Rose.map t.labelOf) := by
      intro cs hcs
      rw [List.filter_eq_self.2 fun c hc => by
        rw [decide_eq_true_eq]; exact fun he => hcs c hc (he ▸ c.label_mem_labels)]
      exact List.map_congr_left fun c hc => Rose.map_congr fun k hk => hkeep k fun hks => hcs c hc (hks ▸ hk)
    have hb := hothers before fun c hc hm => hbetween c hc s List.mem_cons_self hm s.label_mem_labels
    have hl := hothers later fun c hc hm => hlater c hc s.label_mem_labels hm
    have hskip : ∀ o ∈ before.map (Rose.map t.labelOf), ¬ Outline.isNamed name o = true := by
      intro o ho
      obtain ⟨c, hc, rfl⟩ := List.mem_map.1 ho
      have hcn := hbefore c hc
      rw [Bool.not_eq_true'] at hcn
      rw [Outline.isNamed, Rose.label_map, Bool.not_eq_true]
      exact hcn
    have hfirst : Outline.isNamed name (s.map t.labelOf) = true := by
      rw [Outline.isNamed, Rose.label_map]
      exact hnamed
    have htop : u.labelOf a = t.labelOf a := hkeep a fun he => htop s (by simp) (he ▸ s.label_mem_labels)
    rw [Rose.map_node, Outline.dropChild, Rose.map_node]
    simp only [Rose.label_node, Rose.children_node, List.filter_append, List.map_append, List.map_cons]
    rw [List.filter_cons_of_neg (by simp), hb, hl, List.eraseP_append_right _ hskip, List.eraseP_cons_of_pos hfirst,
      htop]

/-- a step that changes times only, apart from one vertex -/
theorem agreeBut_of_touched {t u : Tree} {x p : NodeId} {now : Time}
    (h : ∀ k, k ≠ x → u.node? k = t.touched p now k) : AgreeBut x t u := by
  intro k hk
  rw [h k hk, touched]
  split
  · rw [Option.map_map]
    simp [Function.comp_def]
  · rfl

/-! ## Steps -/

section Step

variable {t : Tree} (h : t.Stacked) {names : List String} {s : Rose NodeId}
  (hs : t.follow names t.layout = some s)
include h hs

theorem attached_follow : t.isAttached s.label = true :=
  h.attached_of_mem_labels h.lays_layout (attached_layout t) (List.mem_map_of_mem (follow_mem_subtrees hs))

theorem lays_follow : t.Lays s := h.lays_layout.subtree (follow_mem_subtrees hs)

omit hs in
/-- no mount covers an attached vertex, nor one that is not there -/
theorem not_covered {x : NodeId} (hx : t.isAttached x = true ∨ t.get? x = none) :
    ∀ a m, t.node? a = some (.mount m) → m.shadowed ≠ x := by
  intro a m hm he
  obtain ⟨h1, h2⟩ := h.waits a m.shadowed (by rw [coverOf, hm]; rfl)
  rw [he] at h1 h2
  rcases hx with hx | hx
  · rw [hx] at h2; cases h2
  · rw [hx] at h1; cases h1

omit hs in
/-- a step that leaves all old vertices alone leaves all labels of the layout alone -/
theorem labelOf_layout {u : Tree} (hu : AgreeBut t.nextId t u) {k : NodeId} (hk : k ∈ t.layout.labels) :
    u.labelOf k = t.labelOf k := by
  have hlt := h.lt_nextId (h.attached_of_mem_labels h.lays_layout (attached_layout t) hk)
  exact hu.labelOf (not_covered h (.inr (t.get?_of_nextId_le (Nat.le_refl _)))) (Nat.ne_of_lt hlt)

theorem map_labelOf_fresh {u : Tree} (hu : AgreeBut t.nextId t u) : s.map u.labelOf = s.map t.labelOf :=
  Rose.map_congr fun _ hk => labelOf_layout h hu (Rose.labels_subset (follow_mem_subtrees hs) hk)

/-- a step at one vertex leaves all labels below it alone -/
theorem map_labelOf_children {u : Tree} (hu : AgreeBut s.label t u) :
    s.children.map (Rose.map u.labelOf) = s.children.map (Rose.map t.labelOf) := by
  have ha := attached_follow h hs
  have hbelow := lays_follow h hs
  refine List.map_congr_left fun c hc => Rose.map_congr fun k hk => ?_
  refine hu.labelOf (not_covered h (.inl ha)) fun hka => ?_
  cases s with
  | node a cs =>
    obtain ⟨htop, -, -⟩ := Rose.nodup_labels_node.1 (h.nodup_of_lays hbelow ha)
    have hka : k = a := hka
    exact htop c hc (hka ▸ hk)

theorem append_collapse (dir : Directory) (hfree : t.findChild s.label dir.name = none) (now : Time) :
    ∃ u, t.append s.label (.directory dir) now = some (t.nextId, u) ∧ u.Stacked ∧
      u.collapse = t.collapse.modify (.addChild dir.name) names := by
  have hp := attached_follow h hs
  have hpn : s.label ≠ t.nextId := Nat.ne_of_lt (h.lt_nextId hp)
  set u := (t.push ⟨.directory dir, some s.label, []⟩).withChildren s.label now (· ++ [t.nextId])
  have hu : t.append s.label (.directory dir) now = some (t.nextId, u) := by
    rw [append, hp, show (Node.directory dir).name = dir.name from rfl, hfree]
    rfl
  have hsound : u.Sound := sound_append h.toSound hp dir now
  have hnode : ∀ k, u.node? k = (if s.label = k then (t.node? k).map (Node.touch now)
      else if k = t.nextId then some (.directory dir) else t.node? k) := by
    intro k
    rw [node?_withChildren, touched, node?_push]
    split
    · next hk => rw [if_neg (hk ▸ hpn)]
    · rfl
  have hagree : AgreeBut t.nextId t u := agreeBut_of_touched fun k hk => by rw [hnode, if_neg hk, touched]
  have hx := not_covered h (x := t.nextId) (.inr (t.get?_of_nextId_le (Nat.le_refl _)))
  have hnew : u.node? t.nextId = some (.directory dir) := by rw [hnode, if_neg hpn, if_pos rfl]
  have hstacked : u.Stacked := hagree.stacked h hsound hx fun m hm => by rw [hnew] at hm; cases hm
  have hchildren : ∀ k, t.isAttached k = true → k ≠ s.label → u.childrenOf k = t.childrenOf k := by
    intro k hka hk
    rw [childrenOf_withChildren, if_neg fun hc => hk hc.1.symm, childrenOf_push,
      if_neg (Nat.ne_of_lt (h.lt_nextId hka))]
  have hatp : u.childrenOf s.label = t.childrenOf s.label ++ [t.nextId] := by
    rw [childrenOf_withChildren, get?_push, if_neg hpn, if_pos ⟨rfl, h.present hp⟩, childrenOf_push, if_neg hpn]
  have hbare : u.childrenOf t.nextId = [] := by
    rw [childrenOf_withChildren, if_neg fun hc => hpn hc.1, childrenOf_push, if_pos rfl]
  have hlayout : u.layout = t.layout.graft s.label fun s => .node s.label (s.children ++ [.node t.nextId []]) := by
    refine layout_graft h.toLinked hsound.toLinked rfl (fun _ => rfl) hchildren fun v hv hvp => lays_node.2 ⟨?_, ?_⟩
    · rw [hvp, hatp, List.map_append, ← h.lays_layout v hv, hvp]
      rfl
    · intro c hc
      rcases List.mem_append.1 hc with hc | hc
      · exact lays_of_unchanged h.toLinked hchildren hv hvp c hc
      · rw [List.mem_singleton.1 hc]
        exact lays_node.2 ⟨hbare, fun c hc => absurd hc List.not_mem_nil⟩
  refine ⟨u, hu, hstacked, collapse_graft h.toLinked hs hlayout (fun k hk _ => labelOf_layout h hagree hk) ?_⟩
  have hleaf : u.labelOf t.nextId = ⟨dir.name, []⟩ := by
    rw [labelOf, stackOf_eq_nil (by rw [hnew]; rfl), hnew]
    rfl
  rw [Outline.addChild, ← map_labelOf_fresh h hs hagree, Rose.map_node, Rose.label_map, Rose.children_map,
    List.map_append, List.map_singleton, Rose.map_node, hleaf]
  rfl

omit hs in
theorem delete_collapse {parent : List String} {name : String} {s : Rose NodeId}
    (hs : t.follow (parent ++ [name]) t.layout = some s) {d : Directory}
    (hd : t.node? s.label = some (.directory d)) (hempty : t.childrenOf s.label = []) (now : Time) :
    ∃ u, t.deleteIfEmpty s.label now = some u ∧ u.Stacked ∧
      u.collapse = t.collapse.modify (.dropChild name) parent := by
  have ha := attached_follow h hs
  rw [follow_append] at hs
  obtain ⟨p, hp, hps⟩ := Option.bind_eq_some_iff.1 hs
  obtain ⟨-, c, hfind, hc⟩ := follow_cons_eq_some hps
  cases hc
  have hpm : s.label ∈ t.childrenOf p.label := by
    rw [lays_follow h hp p p.self_mem_subtrees]
    exact List.mem_map_of_mem (List.mem_of_find?_eq_some hfind)
  have hparent := (h.linked p.label s.label).2 hpm
  have hroot : s.label ≠ t.root := fun he => by rw [he, h.rootFree] at hparent; cases hparent
  have hpne : p.label ≠ s.label := fun he => h.ne_parent s.label (by rw [hparent, he])
  have hv : t.get? s.label = some ⟨.directory d, some p.label, []⟩ := by rw [get?_of_node? hd, hparent, hempty]
  set u := (t.drop s.label).withChildren p.label now (·.filter (· ≠ s.label))
  have hu : t.deleteIfEmpty s.label now = some u := by rw [deleteIfEmpty, if_neg hroot, hv]
  have hsound : u.Sound := sound_remove h.toSound hv now
  have hnode : ∀ k, k ≠ s.label → u.node? k = t.touched p.label now k := fun k hk => by
    rw [node?_withChildren, touched, touched, node?_drop, if_neg (Ne.symm hk)]
  have hagree : AgreeBut s.label t u := agreeBut_of_touched hnode
  have hx := not_covered h (x := s.label) (.inl ha)
  have hgone : u.node? s.label = none := by
    rw [node?_withChildren, touched, if_neg hpne, node?_drop, if_pos rfl]
  have hstacked : u.Stacked := hagree.stacked h hsound hx fun m hm => by rw [hgone] at hm; cases hm
  have hchildren : ∀ k, t.isAttached k = true → k ≠ p.label → u.childrenOf k = t.childrenOf k := by
    intro k hka hk
    rw [childrenOf_withChildren, if_neg fun hc => hk hc.1.symm, childrenOf_drop]
    split
    · next hks => rw [← hks, hempty]
    · rfl
  have hatp : u.childrenOf p.label = (t.childrenOf p.label).filter (· ≠ s.label) := by
    rw [childrenOf_withChildren, get?_drop, if_neg (Ne.symm hpne),
      if_pos ⟨rfl, h.present (attached_follow h hp)⟩, childrenOf_drop, if_neg (Ne.symm hpne)]
  have hlayout : u.layout =
      t.layout.graft p.label fun p => .node p.label (p.children.filter (·.label ≠ s.label)) := by
    refine layout_graft h.toLinked hsound.toLinked rfl (fun _ => rfl) hchildren fun v hv hvp => lays_node.2 ⟨?_, ?_⟩
    · rw [hvp, hatp, ← hvp, h.lays_layout v hv, List.filter_map]
      rfl
    · intro c hc
      exact lays_of_unchanged h.toLinked hchildren hv hvp c (List.mem_of_mem_filter hc)
  have hkeep : ∀ k, k ≠ s.label → u.labelOf k = t.labelOf k := fun k hk => hagree.labelOf hx hk
  have hsp : s.label ∈ p.labels := by
    cases p with
    | node a cs => exact Rose.mem_labels_node.2 (.inr ⟨s, List.mem_of_find?_eq_some hfind, s.label_mem_labels⟩)
  refine ⟨u, hu, hstacked, collapse_graft h.toLinked hp hlayout (fun k _ hk => hkeep k fun hks => hk (hks ▸ hsp)) ?_⟩
  exact map_dropChild (h.nodup_of_lays (lays_follow h hp) (attached_follow h hp)) hfind hkeep

theorem rename_collapse {d : Directory} (hd : t.node? s.label = some (.directory d)) (name : String) (now : Time) :
    ∃ u, t.rename s.label name now = some u ∧ u.Stacked ∧ u.collapse = t.collapse.modify (.setName name) names := by
  have ha := attached_follow h hs
  set u := t.update s.label fun v => { v with node := (v.node.setName name).touch now }
  have hu : t.rename s.label name now = some u := by rw [rename, get?_of_node? hd]
  have hsound : u.Sound := sound_rename h.toSound (fun n => (n.setName name).touch now) fun n => by simp
  have hagree : AgreeBut s.label t u := fun k hk => by rw [node?_update, if_neg (Ne.symm hk)]
  have hx := not_covered h (x := s.label) (.inl ha)
  have hnew : u.node? s.label = some (((Node.directory d).setName name).touch now) := by
    rw [node?_update, if_pos rfl, get?_of_node? hd]
    rfl
  have hstacked : u.Stacked := hagree.stacked h hsound hx fun m hm => by rw [hnew] at hm; cases hm
  have hchildren : ∀ k, u.childrenOf k = t.childrenOf k := fun k => by
    have hc := childrenOf_update t s.label k (f := fun v => { v with node := (v.node.setName name).touch now })
      (fun l => l) fun _ => rfl
    rw [ite_self] at hc
    exact hc
  have hlayout : u.layout = t.layout.graft s.label fun s => s := by
    rw [Rose.graft_id]
    exact (hsound.toLinked.eq_layout (h.lays_layout.congr fun k _ => hchildren k) (label_layout t)).symm
  refine ⟨u, hu, hstacked, collapse_graft h.toLinked hs hlayout (fun k _ hk => ?_) ?_⟩
  · exact hagree.labelOf hx fun hks => hk (hks ▸ s.label_mem_labels)
  · have hname : u.labelOf s.label = { t.labelOf s.label with name := name } := by
      have hstack : t.stackOf s.label = [] := labelOf_stack_directory hd
      rw [labelOf, labelOf, stackOf_eq_nil (by rw [hnew]; rfl), hnew, hstack]
      rfl
    have hkeep := map_labelOf_children h hs hagree
    rw [Outline.setName, Rose.label_map, Rose.children_map, ← hkeep, ← hname]
    cases s with
    | node a cs => exact Rose.map_node ..

theorem mount_collapse {node : Node} (hn : t.node? s.label = some node) (record : MountRecord) (now : Time) :
    ∃ u, t.replaceWith s.label (.mount ⟨node.name, record, .at now, s.label⟩) = some (t.nextId, u) ∧ u.Stacked ∧
      u.collapse = t.collapse.modify (.push record.source) names := by
  have ha := attached_follow h hs
  have hlt : s.label < t.nextId := h.lt_nextId ha
  set mount : Node := .mount ⟨node.name, record, .at now, s.label⟩
  set u := t.supplant s.label mount
  have hu : t.replaceWith s.label mount = some (t.nextId, u) := by
    rw [replaceWith, ha]
    simp only [Bool.not_true, Bool.false_eq_true, if_false]
    rw [if_pos (show mount.shadowed = some s.label from rfl)]
    rfl
  have hsound : u.Sound := sound_supplant h.toSound ha fun e he => (Option.some.inj he).symm
  have hnode := node?_supplant t s.label mount
  have hagree : AgreeBut t.nextId t u := fun k hk => by rw [hnode, if_neg hk]
  have hx := not_covered h (x := t.nextId) (.inr (t.get?_of_nextId_le (Nat.le_refl _)))
  have hnew : u.node? t.nextId = some mount := by rw [hnode, if_pos rfl]
  have hold : u.node? s.label = some node := by rw [hnode, if_neg (Nat.ne_of_lt hlt), hn]
  have hstacked : u.Stacked := hagree.stacked h hsound hx fun m hm => by
    rw [hnew] at hm
    obtain rfl := Node.mount.inj (Option.some.inj hm)
    exact ⟨hlt, by rw [hold]; rfl⟩
  have hpush := linked_push h.toLinked mount
  have hpa : (t.push ⟨mount, none, []⟩).isAttached s.label = true := by rw [isAttached_push_free]; exact ha
  have hpd : (t.push ⟨mount, none, []⟩).isAttached t.nextId = false := by
    rw [isAttached_push_free]; exact isAttached_nextId h.toLinked
  have hpp : ((t.push ⟨mount, none, []⟩).get? t.nextId).isSome := by rw [get?_push, if_pos rfl]; rfl
  have hlayout : u.layout = t.layout.graft s.label fun s => .node t.nextId s.children := by
    refine layout_relabel h.toLinked hsound.toLinked (root_splice_linked hpush hpa hpp hpd) (fun k hka hk => ?_) ?_
    · have hkn : k ≠ t.nextId := Nat.ne_of_lt (h.lt_nextId hka)
      have hmap := childrenOf_splice_map hpush hpa hpp hpd hk hkn
      rw [childrenOf_push_free] at hmap
      exact hmap
    · have hswap := swap_push h.toLinked ha mount
      show (Tree.splice _ _ _).childrenOf _ = _
      rw [childrenOf_splice hswap, if_neg hswap.ne, if_pos rfl, childrenOf_push_free]
  refine ⟨u, hu, hstacked, collapse_graft h.toLinked hs hlayout (fun k hk _ => labelOf_layout h hagree hk) ?_⟩
  have htop : u.labelOf t.nextId = { u.labelOf s.label with stack := record.source :: u.stackOf s.label } := by
    rw [labelOf, labelOf, hnew, hold, hstacked.stackOf_mount hnew]
    rfl
  rw [Outline.push, ← map_labelOf_fresh h hs hagree, Rose.map_node, Rose.label_map, Rose.children_map, htop]
  rfl

theorem unmount_collapse {m : MountNode} (hm : t.node? s.label = some (.mount m)) :
    ∃ u, t.unmount s.label = some u ∧ u.Stacked ∧ u.collapse = t.collapse.modify .pop names := by
  have ha := attached_follow h hs
  obtain ⟨hr, hd⟩ := h.waits s.label m.shadowed (by rw [coverOf, hm]; rfl)
  set u := (t.splice s.label m.shadowed).drop s.label
  have hu : t.unmount s.label = some u := by
    rw [unmount, ha, get?_of_node? hm]
    simp only [hr, Bool.not_true, Bool.false_eq_true, if_false, if_true]
    rfl
  have hsound : u.Sound := sound_unmount h.toSound hu
  have hswap := h.toLinked.swap ha hr hd
  have hnode : ∀ k, u.node? k = if s.label = k then none else t.node? k := fun k => by
    rw [node?_drop, node?_splice]
  have hagree : AgreeBut s.label t u := fun k hk => by rw [hnode, if_neg (Ne.symm hk)]
  have hx := not_covered h (x := s.label) (.inl ha)
  have hstacked : u.Stacked := hagree.stacked h hsound hx fun m' hm' => by
    rw [hnode, if_pos rfl] at hm'
    cases hm'
  have hlayout : u.layout = t.layout.graft s.label fun s => .node m.shadowed s.children := by
    refine layout_relabel h.toLinked hsound.toLinked (root_splice_linked h.toLinked ha hr hd) (fun k hka hk => ?_) ?_
    · have hkr : k ≠ m.shadowed := fun he => by rw [← he, hka] at hd; cases hd
      rw [childrenOf_drop, if_neg (Ne.symm hk)]
      exact childrenOf_splice_map h.toLinked ha hr hd hk hkr
    · rw [childrenOf_drop, if_neg (Ne.symm hswap.ne), childrenOf_splice hswap, if_neg hswap.ne, if_pos rfl]
  refine ⟨u, hu, hstacked, collapse_graft h.toLinked hs hlayout (fun k _ hk => ?_) ?_⟩
  · exact hagree.labelOf hx fun hks => hk (hks ▸ s.label_mem_labels)
  · have hback : u.labelOf m.shadowed = { t.labelOf s.label with stack := (t.labelOf s.label).stack.tail } := by
      rw [hagree.labelOf hx hswap.ne, labelOf, labelOf, h.alike _ _ hm, hm, h.stackOf_mount hm]
      rfl
    rw [Outline.pop, Rose.label_map, Rose.children_map, Rose.map_node, map_labelOf_children h hs hagree, hback]

end Step

end Tree

end MountSpace

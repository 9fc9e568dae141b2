/-
The names on the way down to a vertex. An attached vertex has one way (`leads_unique`), and with siblings apart no other
vertex has a way of the same names (`leads_injective`). A covered vertex stands where the topmost of the mounts over it
stands (`Standing`).

What each change does to ways: a directory more or less leaves them alone, a swap leads them to the vertex that has come
into the place (`leads_swapped`), and a rename changes one name on the ways that pass through the directory
(`leads_renamed`). Where a vertex stands changes by a rename only.
-/
import MountSpace.Proofs.Path.Matching
import MountSpace.Proofs.Tree.Siblings
import Mathlib.Logic.Relation

namespace MountSpace

/-- the names a way has once what it leads through has moved from one place to another -/
def moved (source target names : List String) : List String :=
  if foldNames source <+: foldNames names then target ++ names.drop source.length else names

/-- names equal apart from case move alike -/
theorem foldNames_moved {names others : List String} (h : foldNames names = foldNames others)
    (source target : List String) : foldNames (moved source target names) = foldNames (moved source target others) := by
  have hdrop : ∀ n, foldNames (names.drop n) = foldNames (others.drop n) := by
    intro n
    rw [foldNames, foldNames, List.map_drop, List.map_drop]
    exact congrArg (List.drop n) h
  unfold moved
  rw [h]
  split
  · rw [foldNames_append, foldNames_append, hdrop]
  · exact h

namespace Tree

/-- the names on the way down from the root to a vertex -/
inductive Leads (t : Tree) : NodeId → List String → Prop where
  | root : Leads t t.root []
  | child {p c : NodeId} {names : List String} {name : String} (above : Leads t p names) (below : c ∈ t.childrenOf p)
      (named : t.name? c = some name) : Leads t c (names ++ [name])

/-- a mount and the vertex right below it in its stack -/
def Covers (t : Tree) (a b : NodeId) : Prop := t.coverOf a = some b

/-- the names lead to the vertex, or to the topmost of the mounts over it if it is covered -/
def Standing (t : Tree) (v : NodeId) (names : List String) : Prop :=
  ∃ top, Relation.ReflTransGen t.Covers top v ∧ t.Leads top names

section Leads

variable {t : Tree} (h : t.Linked)
include h

theorem Leads.attached {k : NodeId} {names : List String} (hk : t.Leads k names) : t.isAttached k = true := by
  cases hk with
  | root => exact (t.isAttached_iff _).2 (.inl rfl)
  | child above below named => exact attached_of_child h below

/-- **There is one way down to a vertex.** -/
theorem leads_unique {k : NodeId} {names others : List String} (hk : t.Leads k names) (ho : t.Leads k others) :
    names = others := by
  induction hk generalizing others with
  | root =>
    cases ho with
    | root => rfl
    | child above below named => exact absurd below (root_not_child h)
  | child above below named ih =>
    cases ho with
    | root => exact absurd below (root_not_child h)
    | child above' below' named' =>
      cases parent_unique h below below'
      rw [named] at named'
      cases named'
      rw [ih above']

omit h in
/-- **No two vertices have ways of the same names**, apart from case. -/
theorem leads_injective (ha : t.Apart) {a b : NodeId} {names others : List String} (hn : t.Leads a names)
    (ho : t.Leads b others) (hf : foldNames names = foldNames others) : a = b := by
  induction hn generalizing b others with
  | root =>
    cases ho with
    | root => rfl
    | child above below named =>
      rw [foldNames_append] at hf
      cases List.append_eq_nil_iff.1 hf.symm with
      | intro _ hlast => cases hlast
  | @child p c names name above below named ih =>
    cases ho with
    | root =>
      rw [foldNames_append] at hf
      cases List.append_eq_nil_iff.1 hf with
      | intro _ hlast => cases hlast
    | @child q _ others other above' below' named' =>
      rw [foldNames_append, foldNames_append, foldNames_singleton, foldNames_singleton] at hf
      obtain ⟨hnames, hname⟩ := List.append_inj' hf rfl
      cases ih above' hnames
      refine ha p c b below below' ?_
      rw [key?, key?, named, named']
      exact congrArg some (List.cons.inj hname).1

end Leads

/-! ## Ways after a change -/

section Edits

variable {t u : Tree} {k : NodeId} {names : List String}

theorem leads_grown (h : t.Linked) {p : NodeId} {name : String} (hu : t.Grown p name u) (hk : t.Leads k names) :
    u.Leads k names := by
  induction hk with
  | root =>
    rw [← hu.root]
    exact .root
  | @child q c names other above below named ih =>
    refine .child ih ?_ ?_
    · rw [hu.children]
      split
      · next hq => exact List.mem_append_left _ (hq ▸ below)
      · exact below
    · rw [hu.name?, if_neg (Nat.ne_of_lt (h.lt_nextId (attached_of_child h below))), named]

theorem leads_pruned {id : NodeId} (hu : t.Pruned id u) (hk : t.Leads k names) (hne : k ≠ id) : u.Leads k names := by
  induction hk with
  | root =>
    rw [← hu.root]
    exact .root
  | @child q c names other above below named ih =>
    have hq : q ≠ id := by
      rintro rfl
      rw [hu.bare] at below
      cases below
    refine .child (ih hq) ?_ ?_
    · rw [hu.children, List.mem_filter, decide_eq_true_eq]
      exact ⟨below, hne⟩
    · rw [hu.name?, if_neg hne, named]

theorem leads_swapped (h : t.Linked) {e r : NodeId} (hu : t.Swapped e r u) (hn : t.KeepsNames e r u)
    (hk : t.Leads k names) : u.Leads (put e r k) names := by
  induction hk with
  | root =>
    rw [← hu.root]
    exact .root
  | child above below named ih =>
    refine .child ih (hu.child h below) ?_
    rw [hn _ (attached_of_child h below), named]

/-- **A rename moves the ways through the directory**, and no other. -/
theorem leads_renamed (h : t.Linked) (ha : t.Apart) {id : NodeId} {name : String} (hu : t.Renamed id name u)
    (hid : id ≠ t.root) {there source target others : List String} (hthere : t.Leads id there)
    (hsource : foldNames there = foldNames source) (htarget : target = others ++ [name])
    (hothers : foldNames others = foldNames source.dropLast) (hk : t.Leads k names) :
    ∃ now, u.Leads k now ∧ foldNames now = foldNames (moved source target names) := by
  have hpresent : (t.get? id).isSome := h.present (hthere.attached h)
  have hsome : source ≠ [] := by
    rintro rfl
    cases hthere with
    | root => exact hid rfl
    | child above below named => simp [foldNames] at hsource
  -- along the way: what is above the directory stays, its own name is the new one, what is below follows
  induction hk with
  | root =>
    refine ⟨[], by rw [← hu.root]; exact .root, ?_⟩
    have hnot : ¬ foldNames source <+: foldNames [] := by simpa [foldNames] using hsome
    rw [moved, if_neg hnot]
  | @child p c names other above below named ih =>
    obtain ⟨now, hnow, hfold⟩ := ih
    have hchild : c ∈ u.childrenOf p := by rw [hu.children]; exact below
    by_cases hc : c = id
    · subst hc
      have hway : there = names ++ [other] := leads_unique h hthere (.child above below named)
      have hlast : foldNames names = foldNames source.dropLast := by
        have hcut := congrArg List.dropLast hsource
        rw [hway, foldNames_append, foldNames_singleton, List.dropLast_concat] at hcut
        rw [hcut, foldNames, foldNames, List.map_dropLast]
      have hlength : source.length = names.length + 1 := by
        rw [← length_foldNames source, ← hsource, length_foldNames, hway, List.length_append]
        rfl
      have habove : ¬ foldNames source <+: foldNames names := by
        intro hp
        have hle := hp.length_le
        rw [length_foldNames, length_foldNames] at hle
        omega
      rw [moved, if_neg habove] at hfold
      refine ⟨now ++ [name], .child hnow hchild (by rw [hu.name? hpresent, if_pos rfl]), ?_⟩
      have hpre : foldNames source <+: foldNames (names ++ [other]) := by
        rw [← hway]
        exact ⟨[], by rw [List.append_nil, hsource]⟩
      have hdrop : (names ++ [other]).drop source.length = [] := by
        rw [hlength]
        exact List.drop_eq_nil_of_le (by simp)
      rw [moved, if_pos hpre, hdrop, List.append_nil, htarget, foldNames_append, foldNames_append, hfold, hlast,
        hothers]
    · have hname : u.name? c = some other := by rw [hu.name? hpresent, if_neg hc, named]
      refine ⟨now ++ [other], .child hnow hchild hname, ?_⟩
      have hiff : foldNames source <+: foldNames (names ++ [other]) ↔ foldNames source <+: foldNames names := by
        rw [foldNames_append, foldNames_singleton, List.prefix_concat_iff]
        refine or_iff_right ?_
        intro hwhole
        refine hc (leads_injective ha (.child above below named) hthere ?_)
        rw [hsource, hwhole, foldNames_append, foldNames_singleton]
      rw [foldNames_append, hfold]
      unfold moved
      by_cases hp : foldNames source <+: foldNames names
      · have hle : source.length ≤ names.length := by
          have hle := hp.length_le
          rwa [length_foldNames, length_foldNames] at hle
        rw [if_pos hp, if_pos (hiff.2 hp), List.drop_append_of_le_length hle, ← List.append_assoc,
          foldNames_append (target ++ _)]
      · rw [if_neg hp, if_neg fun hq => hp (hiff.1 hq), foldNames_append]

end Edits

/-! ## Where a vertex stands -/

section Standing

variable {t u : Tree} {v : NodeId} {names : List String}

theorem covers_eq_actAt {a b : NodeId} : t.Covers a b ↔ ∃ record, t.actAt a = some (record, b) := by
  rw [Covers, coverOf_eq_actAt]
  simp

/-- a covered vertex is not attached -/
theorem Covered.not_attached (h : t.Covered) {a b : NodeId} (hc : t.Covers a b) : t.isAttached b ≠ true := by
  rw [(h.waits a b hc).2]
  exact Bool.false_ne_true

/-- a stack has one top -/
theorem top_unique (h : t.Covered) {a b : NodeId} (ha : Relation.ReflTransGen t.Covers a v)
    (hb : Relation.ReflTransGen t.Covers b v) (haa : t.isAttached a = true) (hba : t.isAttached b = true) : a = b := by
  induction ha generalizing b with
  | refl =>
    cases hb with
    | refl => rfl
    | tail _ hc => exact absurd haa (h.not_attached hc)
  | tail _ hc ih =>
    cases hb with
    | refl => exact absurd hba (h.not_attached hc)
    | tail hb' hc' =>
      cases h.single _ _ _ hc hc'
      exact ih hb' hba

/-- **A vertex stands in one place.** -/
theorem standing_unique (h : t.Sound) {others : List String} (hs : t.Standing v names) (ho : t.Standing v others) :
    names = others := by
  obtain ⟨a, ha, hn⟩ := hs
  obtain ⟨b, hb, hm⟩ := ho
  cases top_unique h.toCovered ha hb (hn.attached h.toLinked) (hm.attached h.toLinked)
  exact leads_unique h.toLinked hn hm

/-- a change that leaves all acts of mounting alone leaves the stacks alone -/
theorem stack_of_acts (hacts : ∀ a, u.actAt a = t.actAt a) {a : NodeId} (hstack : Relation.ReflTransGen t.Covers a v) :
    Relation.ReflTransGen u.Covers a v := by
  refine Relation.ReflTransGen.mono ?_ _ _ hstack
  intro a b hab
  rw [covers_eq_actAt, hacts, ← covers_eq_actAt]
  exact hab

theorem standing_grown (h : t.Linked) {p : NodeId} {name : String} (hu : t.Grown p name u)
    (hs : t.Standing v names) : u.Standing v names := by
  obtain ⟨top, hstack, hway⟩ := hs
  exact ⟨top, stack_of_acts hu.actAt hstack, leads_grown h hu hway⟩

theorem standing_pruned {id : NodeId} (hu : t.Pruned id u) (hv : v ≠ id) (hs : t.Standing v names) :
    u.Standing v names := by
  obtain ⟨top, hstack, hway⟩ := hs
  refine ⟨top, stack_of_acts hu.actAt hstack, leads_pruned hu hway ?_⟩
  -- a directory is on top of no stack but its own
  rintro rfl
  obtain ⟨dir, hdir⟩ := hu.directory
  rcases Relation.ReflTransGen.cases_head hstack with rfl | ⟨b, hb, -⟩
  · exact hv rfl
  · rw [Covers, coverOf, hdir] at hb
    cases hb

/-- a mount on top of a stack -/
theorem standing_mounted (h : t.Linked) {e : NodeId} {m : MountNode} (hu : t.Mounted e m u)
    (hm : t.name? e = some m.name) (hs : t.Standing v names) : u.Standing v names := by
  obtain ⟨top, hstack, hway⟩ := hs
  have hold : ∀ a b, t.Covers a b → u.Covers a b := by
    intro a b hab
    rw [covers_eq_actAt] at hab ⊢
    obtain ⟨record, hab⟩ := hab
    have ha : a ≠ t.nextId := by
      rintro rfl
      rw [actAt_nextId] at hab
      cases hab
    exact ⟨record, by rw [hu.actAt, if_neg ha, hab]⟩
  have hstack' := Relation.ReflTransGen.mono hold _ _ hstack
  have hway' := leads_swapped h hu.toSwapped (hu.keepsNames h hm) hway
  by_cases htop : top = e
  · subst htop
    have hnew : u.Covers t.nextId top := covers_eq_actAt.2 ⟨m.record, by rw [hu.actAt, if_pos rfl]⟩
    rw [put, if_pos rfl] at hway'
    exact ⟨t.nextId, .head hnew hstack', hway'⟩
  · rw [put, if_neg htop] at hway'
    exact ⟨top, hstack', hway'⟩

/-- a new mount stands where the vertex stood whose place it took -/
theorem standing_mount (h : t.Linked) {e : NodeId} {m : MountNode} (hu : t.Mounted e m u)
    (hm : t.name? e = some m.name) (hk : t.Leads e names) : u.Standing t.nextId names := by
  have hway := leads_swapped h hu.toSwapped (hu.keepsNames h hm) hk
  rw [put, if_pos rfl] at hway
  exact ⟨t.nextId, .refl, hway⟩

/-- a stack without its top -/
theorem standing_unmounted (h : t.Stacked) {id : NodeId} {m : MountNode} (hu : t.Unmounted id m u) (hv : v ≠ id)
    (hs : t.Standing v names) : u.Standing v names := by
  obtain ⟨top, hstack, hway⟩ := hs
  have hway' := leads_swapped h.toLinked hu.toSwapped (hu.keepsNames h) hway
  -- the mount was covered by none, so it stood in no other stack than on top
  have hrest : ∀ a, a ≠ id → Relation.ReflTransGen t.Covers a v → Relation.ReflTransGen u.Covers a v := by
    intro a ha hav
    induction hav using Relation.ReflTransGen.head_induction_on with
    | refl => exact .refl
    | @head a b hab _ ih =>
      have hb : b ≠ id := by
        rintro rfl
        exact h.not_attached hab hu.stood
      refine .head ?_ (ih hb)
      rw [covers_eq_actAt] at hab ⊢
      obtain ⟨record, hab⟩ := hab
      exact ⟨record, by rw [hu.actAt, if_neg ha, hab]⟩
  by_cases htop : top = id
  · subst htop
    rw [put, if_pos rfl] at hway'
    rcases Relation.ReflTransGen.cases_head hstack with rfl | ⟨b, hb, hbv⟩
    · exact absurd rfl hv
    · have hbs : b = m.shadowed := by
        rw [Covers, coverOf, hu.mount] at hb
        exact (Option.some.inj hb).symm
      rw [← hbs] at hway'
      have hbtop : b ≠ top := by
        rintro rfl
        exact h.not_attached hb hu.stood
      exact ⟨b, hrest b hbtop hbv, hway'⟩
  · rw [put, if_neg htop] at hway'
    exact ⟨top, hrest top htop hstack, hway'⟩

/-- **A rename moves what stands at the directory or below it.** -/
theorem standing_renamed (h : t.Linked) (ha : t.Apart) {id : NodeId} {name : String} (hu : t.Renamed id name u)
    (hid : id ≠ t.root) {there source target others : List String} (hthere : t.Leads id there)
    (hsource : foldNames there = foldNames source) (htarget : target = others ++ [name])
    (hothers : foldNames others = foldNames source.dropLast) (hs : t.Standing v names) :
    ∃ now, u.Standing v now ∧ foldNames now = foldNames (moved source target names) := by
  obtain ⟨top, hstack, hway⟩ := hs
  obtain ⟨now, hnow, hfold⟩ := leads_renamed h ha hu hid hthere hsource htarget hothers hway
  exact ⟨now, ⟨top, stack_of_acts hu.actAt hstack, hnow⟩, hfold⟩

end Standing

end Tree

end MountSpace

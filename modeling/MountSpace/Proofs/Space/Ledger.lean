/-
The list of mounts against the arena. A mounting gives its record the number of the vertex it makes as the serial
number, so a record leads back to its vertex, and mounting and unmounting change the list and the arena in step
(`Booked`). Equal mount points and equal sources do not matter: an unmount takes out the record of its own serial number.

A vertex that is there and not attached waits under a mount. So beside the vertices in reach of the root there are as
many as there are mounts, and all vertices are counted (`Booked.count`).

Main result: `run_booked`.
-/
import MountSpace.Proofs.Space.Runs
import Mathlib.Data.Set.Card
import Mathlib.Data.List.Range

namespace MountSpace

/-- the record of a mounting -/
def Deed.record? : Deed → Option MountRecord
  | mounted record => some record
  | renamed _ _ => none

/-- the records of all mountings, in order -/
def mountings (deeds : List Deed) : List MountRecord := deeds.filterMap Deed.record?

namespace Tree

/-! ## Counting vertices -/

theorem slots_eq_map (t : Tree) : t.slots.toList = (List.range t.nextId).map t.get? := by
  refine List.ext_getElem (by simp [nextId]) fun k h₁ h₂ => ?_
  rw [Array.length_toList] at h₁
  simp [get?, h₁]

/-- vertices are counted slot by slot, which is number by number -/
theorem count_eq_ncard (t : Tree) : t.count = {k | (t.get? k).isSome}.ncard := by
  have hset : {k | (t.get? k).isSome} = ↑((List.range t.nextId).filter fun k => (t.get? k).isSome).toFinset := by
    refine Set.ext fun k => ?_
    simp only [Set.mem_ofPred_eq, List.coe_toFinset, List.mem_filter, List.mem_range]
    refine ⟨fun hk => ⟨?_, hk⟩, And.right⟩
    obtain ⟨v, hv⟩ := Option.isSome_iff_exists.1 hk
    exact lt_nextId_of_get? hv
  rw [hset, Set.ncard_coe_finset, List.toFinset_card_of_nodup (List.nodup_range.filter _), count,
    ← Array.countP_toList, slots_eq_map, List.countP_map, List.countP_eq_length_filter]
  rfl

theorem finite_present (t : Tree) : {k | (t.get? k).isSome}.Finite := by
  refine (Set.finite_lt_nat t.nextId).subset fun k hk => ?_
  obtain ⟨v, hv⟩ := Option.isSome_iff_exists.1 hk
  exact lt_nextId_of_get? hv

end Tree

namespace Namespace

/-! ## The books -/

/-- records and mounts lead to each other by serial number, the records stand in the order of their numbers, and every
vertex that is there and not attached is covered -/
structure Booked (t : Tree) (mounts : List MountRecord) : Prop where
  listed : ∀ v r s, t.actAt v = some (r, s) → r ∈ mounts ∧ r.serial = v
  found : ∀ r ∈ mounts, ∃ s, t.actAt r.serial = some (r, s)
  ordered : mounts.Pairwise fun a b => a.serial < b.serial
  covered : ∀ k, (t.face? k).isSome → t.isAttached k = false → ∃ a r, t.actAt a = some (r, k)

theorem lt_nextId_of_actAt {t : Tree} {v s : NodeId} {r : MountRecord} (h : t.actAt v = some (r, s)) :
    v < t.nextId := by
  obtain ⟨m, hm, -⟩ := Tree.actAt_eq_some.1 h
  exact Tree.lt_nextId_of_get? (Tree.get?_of_node? hm)

section Edits

variable {t u : Tree} {mounts : List MountRecord} (h : Booked t mounts)
include h

/-- a change without mounts: the acts stay, and what is detached afterwards was there and detached before -/
theorem booked_of_acts (hacts : ∀ k, u.actAt k = t.actAt k)
    (hdetached : ∀ k, (u.face? k).isSome → u.isAttached k = false → (t.face? k).isSome ∧ t.isAttached k = false) :
    Booked u mounts := by
  refine ⟨fun v r s hv => h.listed v r s (by rw [← hacts]; exact hv), fun r hr => ?_, h.ordered, fun k hk hd => ?_⟩
  · rw [hacts]
    exact h.found r hr
  · obtain ⟨hpresent, hfree⟩ := hdetached k hk hd
    obtain ⟨a, r, ha⟩ := h.covered k hpresent hfree
    exact ⟨a, r, by rw [hacts, ha]⟩

theorem booked_grown {p : NodeId} {name : String} (hu : t.Grown p name u) : Booked u mounts := by
  refine booked_of_acts h hu.actAt fun k hk hd => ?_
  rw [← Bool.not_eq_true, hu.attached, not_or, Bool.not_eq_true] at hd
  rw [hu.face, if_neg hd.1] at hk
  exact ⟨hk, hd.2⟩

theorem booked_pruned {id : NodeId} (hu : t.Pruned id u) : Booked u mounts := by
  refine booked_of_acts h hu.actAt fun k hk hd => ?_
  rw [hu.face] at hk
  split at hk
  · cases hk
  · next hne =>
    rw [← Bool.not_eq_true, hu.attached, not_and, Bool.not_eq_true] at hd
    exact ⟨hk, hd hne⟩

theorem booked_renamed {id : NodeId} {name : String} (hu : t.Renamed id name u) : Booked u mounts := by
  refine booked_of_acts h hu.actAt fun k hk hd => ?_
  rw [hu.attached] at hd
  rw [hu.face] at hk
  split at hk
  · rw [Option.isSome_map] at hk
    exact ⟨hk, hd⟩
  · exact ⟨hk, hd⟩

theorem booked_mounted {e : NodeId} {m : MountNode} (hu : t.Mounted e m u) (hserial : m.record.serial = t.nextId) :
    Booked u (mounts ++ [m.record]) := by
  have hold : ∀ r ∈ mounts, r.serial < t.nextId := by
    intro r hr
    obtain ⟨s, hs⟩ := h.found r hr
    exact lt_nextId_of_actAt hs
  refine ⟨fun v r s hv => ?_, fun r hr => ?_, ?_, fun k hk hd => ?_⟩
  · rw [hu.actAt] at hv
    split at hv
    · next hvn =>
      cases hv
      exact ⟨List.mem_append_right _ (List.mem_singleton.2 rfl), hserial.trans hvn.symm⟩
    · obtain ⟨hr, hserial⟩ := h.listed v r s hv
      exact ⟨List.mem_append_left _ hr, hserial⟩
  · rcases List.mem_append.1 hr with hr | hr
    · obtain ⟨s, hs⟩ := h.found r hr
      exact ⟨s, by rw [hu.actAt, if_neg (Nat.ne_of_lt (hold r hr)), hs]⟩
    · rw [List.mem_singleton.1 hr, hserial]
      exact ⟨e, by rw [hu.actAt, if_pos rfl]⟩
  · refine List.pairwise_append.2 ⟨h.ordered, List.pairwise_singleton _ _, fun a ha b hb => ?_⟩
    rw [List.mem_singleton.1 hb, hserial]
    exact hold a ha
  · rw [← Bool.not_eq_true, hu.attached, not_or, not_and, Bool.not_eq_true] at hd
    rw [hu.face, if_neg hd.1] at hk
    by_cases hke : k = e
    · exact ⟨t.nextId, m.record, by rw [hu.actAt, if_pos rfl, hke]⟩
    · obtain ⟨a, r, ha⟩ := h.covered k hk (hd.2 hke)
      exact ⟨a, r, by rw [hu.actAt, if_neg (Nat.ne_of_lt (lt_nextId_of_actAt ha)), ha]⟩

theorem booked_unmounted {id : NodeId} {m : MountNode} (hu : t.Unmounted id m u) :
    Booked u (mounts.filter (·.serial ≠ m.record.serial)) := by
  have hact : t.actAt id = some (m.record, m.shadowed) := by rw [Tree.actAt, hu.mount]; rfl
  have hid : m.record.serial = id := (h.listed id _ _ hact).2
  refine ⟨fun v r s hv => ?_, fun r hr => ?_, h.ordered.filter _, fun k hk hd => ?_⟩
  · rw [hu.actAt] at hv
    split at hv
    · cases hv
    · next hne =>
      obtain ⟨hr, hserial⟩ := h.listed v r s hv
      refine ⟨List.mem_filter.2 ⟨hr, ?_⟩, hserial⟩
      rw [decide_eq_true_eq, hserial, hid]
      exact hne
  · rw [List.mem_filter, decide_eq_true_eq, hid] at hr
    obtain ⟨s, hs⟩ := h.found r hr.1
    exact ⟨s, by rw [hu.actAt, if_neg hr.2, hs]⟩
  · rw [hu.face] at hk
    split at hk
    · cases hk
    · next hne =>
      rw [← Bool.not_eq_true, hu.attached, not_or, not_and, Bool.not_eq_true] at hd
      obtain ⟨a, r, ha⟩ := h.covered k hk (hd.2 hne)
      -- the mount that is gone covered another vertex
      have haid : a ≠ id := by
        rintro rfl
        rw [hact] at ha
        cases ha
        exact hd.1 rfl
      exact ⟨a, r, by rw [hu.actAt, if_neg haid, ha]⟩

end Edits

theorem booked_edit {ns next : Namespace} {deed : Option Deed} (h : Booked ns.tree ns.mounts)
    (edit : Edit ns deed next) : Booked next.tree next.mounts := by
  cases edit with
  | grow edit => exact booked_grown h edit
  | prune edit => exact booked_pruned h edit
  | rename edit => exact booked_renamed h edit
  | mount edit below named serial => exact booked_mounted h edit serial
  | unmount edit => exact booked_unmounted h edit
  | close => exact h

/-! ## The order of mounting -/

/-- the mounts there are, among all the mountings there have been: in their order, which is that of the numbers -/
structure InOrder (ns : Namespace) (deeds : List Deed) : Prop where
  sublist : ns.mounts.Sublist (mountings deeds)
  increasing : (mountings deeds).Pairwise fun a b => a.serial < b.serial
  past : ∀ r ∈ mountings deeds, r.serial < ns.tree.nextId

theorem mountings_append (before later : List Deed) :
    mountings (before ++ later) = mountings before ++ mountings later :=
  List.filterMap_append

/-- an edit that mounts nothing leaves the order as it is -/
theorem InOrder.keep {ns next : Namespace} {deeds : List Deed} (h : InOrder ns deeds) {deed : Option Deed}
    (hdeed : mountings deed.toList = []) (hmounts : next.mounts.Sublist ns.mounts)
    (hnext : ns.tree.nextId ≤ next.tree.nextId) : InOrder next (deeds ++ deed.toList) := by
  have hsame : mountings (deeds ++ deed.toList) = mountings deeds := by
    rw [mountings_append, hdeed, List.append_nil]
  refine ⟨?_, ?_, ?_⟩
  · rw [hsame]
    exact hmounts.trans h.sublist
  · rw [hsame]
    exact h.increasing
  · rw [hsame]
    intro r hr
    exact Nat.lt_of_lt_of_le (h.past r hr) hnext

theorem inOrder_edit {ns next : Namespace} {deeds : List Deed} {deed : Option Deed} (h : InOrder ns deeds)
    (edit : Edit ns deed next) : InOrder next (deeds ++ deed.toList) := by
  cases edit with
  | grow edit => exact h.keep rfl (List.Sublist.refl _) edit.next
  | prune edit => exact h.keep rfl (List.Sublist.refl _) edit.next
  | rename edit => exact h.keep rfl (List.Sublist.refl _) edit.next
  | unmount edit => exact h.keep rfl List.filter_sublist edit.next
  | close => exact h.keep rfl (List.Sublist.refl _) (Nat.le_refl _)
  | @mount e m way tree edit below named serial =>
    have hnew : mountings (deeds ++ (some (Deed.mounted m.record)).toList) = mountings deeds ++ [m.record] :=
      mountings_append deeds _
    have hlast : ns.tree.nextId < tree.nextId := by
      refine lt_nextId_of_actAt (v := ns.tree.nextId) (r := m.record) (s := e) ?_
      rw [edit.actAt, if_pos rfl]
    refine ⟨?_, ?_, ?_⟩
    · rw [hnew]
      exact h.sublist.append (List.Sublist.refl _)
    · rw [hnew]
      refine List.pairwise_append.2 ⟨h.increasing, List.pairwise_singleton _ _, fun a ha b hb => ?_⟩
      rw [List.mem_singleton.1 hb, serial]
      exact h.past a ha
    · rw [hnew]
      intro r hr
      rcases List.mem_append.1 hr with hr | hr
      · exact Nat.lt_trans (h.past r hr) hlast
      · rw [List.mem_singleton.1 hr, serial]
        exact hlast

/-! ## The whole account -/

/-- the list of mounts and the arena tell the same -/
structure Account (ns : Namespace) (deeds : List Deed) : Prop where
  /-- a record is that of one vertex -/
  found : ∀ r ∈ ns.mounts, ∃! v, ∃ m, ns.tree.node? v = some (.mount m) ∧ m.record = r
  /-- a mount, attached or covered, has its record in the list once, under its own number -/
  listed : ∀ v m, ns.tree.node? v = some (.mount m) → ns.mounts.count m.record = 1 ∧ m.record.serial = v
  /-- the list is in order of mounting -/
  inOrder : ns.mounts.Sublist (mountings deeds)
  /-- no two mountings have the same number -/
  increasing : (mountings deeds).Pairwise fun a b => a.serial < b.serial
  /-- what is detached is covered by one mount -/
  covered : ∀ k, (ns.tree.get? k).isSome → ns.tree.isAttached k = false →
    ∃! a, ∃ m, ns.tree.node? a = some (.mount m) ∧ m.shadowed = k
  count : ns.tree.count = {v | ns.tree.Reaches v}.ncard + ns.mounts.length

theorem Booked.nodup {t : Tree} {mounts : List MountRecord} (h : Booked t mounts) : mounts.Nodup :=
  h.ordered.imp fun hlt hab => Nat.ne_of_lt hlt (congrArg MountRecord.serial hab)

/-- beside the attached vertices there are as many as there are mounts -/
theorem Booked.count {t : Tree} {mounts : List MountRecord} (h : Booked t mounts) (ht : t.Sound) :
    t.count = {v | t.Reaches v}.ncard + mounts.length := by
  have hpresent : {k | (t.get? k).isSome} =
      {k | t.isAttached k = true} ∪ {k | (t.get? k).isSome ∧ t.isAttached k = false} := by
    refine Set.ext fun k => ?_
    simp only [Set.mem_union, Set.mem_ofPred_eq]
    cases hk : t.isAttached k with
    | true => simp [ht.present hk]
    | false => simp
  have hapart : Disjoint {k | t.isAttached k = true} {k | (t.get? k).isSome ∧ t.isAttached k = false} := by
    refine Set.disjoint_left.2 fun k hk hd => ?_
    rw [Set.mem_ofPred_eq] at hk hd
    rw [hk] at hd
    cases hd.2
  -- each record leads to the vertex that its mount covers
  have hdetached : {k | (t.get? k).isSome ∧ t.isAttached k = false} =
      (fun r : MountRecord => (t.coverOf r.serial).getD 0) '' {r | r ∈ mounts} := by
    refine Set.ext fun k => ?_
    simp only [Set.mem_ofPred_eq, Set.mem_image]
    constructor
    · rintro ⟨hk, hd⟩
      rw [← Tree.face?_isSome] at hk
      obtain ⟨a, r, ha⟩ := h.covered k hk hd
      obtain ⟨hr, rfl⟩ := h.listed a r k ha
      exact ⟨r, hr, by rw [Tree.coverOf_of_actAt ha]; rfl⟩
    · rintro ⟨r, hr, rfl⟩
      obtain ⟨s, hs⟩ := h.found r hr
      have hcover := Tree.coverOf_of_actAt hs
      rw [hcover]
      exact ht.waits _ s hcover
  have hinj : Set.InjOn (fun r : MountRecord => (t.coverOf r.serial).getD 0) {r | r ∈ mounts} := by
    intro a ha b hb hab
    obtain ⟨s, hs⟩ := h.found a ha
    obtain ⟨s', hs'⟩ := h.found b hb
    have hca := Tree.coverOf_of_actAt hs
    have hcb := Tree.coverOf_of_actAt hs'
    simp only [hca, hcb, Option.getD_some] at hab
    have hserial := ht.single _ _ s hca (hab ▸ hcb)
    rw [hserial, hs'] at hs
    exact (congrArg Prod.fst (Option.some.inj hs)).symm
  have hmounts : {r | r ∈ mounts}.ncard = mounts.length := by
    rw [← List.coe_toFinset, Set.ncard_coe_finset, List.toFinset_card_of_nodup h.nodup]
  have hreached : {k | t.isAttached k = true} = {v | t.Reaches v} :=
    Set.ext fun k => ht.isAttached_iff_reaches k
  have hfinite := t.finite_present
  rw [hpresent] at hfinite
  rw [Tree.count_eq_ncard, hpresent, Set.ncard_union_eq hapart (hfinite.subset Set.subset_union_left)
    (hfinite.subset Set.subset_union_right), hdetached, hinj.ncard_image, hmounts, hreached]

theorem account_of_booked {ns : Namespace} {deeds : List Deed} (ht : ns.tree.Sound) (h : Booked ns.tree ns.mounts)
    (ho : InOrder ns deeds) : Account ns deeds := by
  have hact : ∀ {v m}, ns.tree.node? v = some (.mount m) → ns.tree.actAt v = some (m.record, m.shadowed) :=
    fun hm => Tree.actAt_eq_some.2 ⟨_, hm, rfl, rfl⟩
  refine ⟨fun r hr => ?_, fun v m hm => ?_, ho.sublist, ho.increasing, fun k hk hd => ?_, h.count ht⟩
  · obtain ⟨s, hs⟩ := h.found r hr
    obtain ⟨m, hm, hrecord, -⟩ := Tree.actAt_eq_some.1 hs
    refine ⟨r.serial, ⟨m, hm, hrecord⟩, ?_⟩
    rintro v ⟨m', hm', rfl⟩
    exact (h.listed v _ _ (hact hm')).2.symm
  · obtain ⟨hr, hserial⟩ := h.listed v _ _ (hact hm)
    exact ⟨List.count_eq_one_of_mem h.nodup hr, hserial⟩
  · rw [← Tree.face?_isSome] at hk
    obtain ⟨a, r, ha⟩ := h.covered k hk hd
    obtain ⟨m, hm, -, hshadowed⟩ := Tree.actAt_eq_some.1 ha
    refine ⟨a, ⟨m, hm, hshadowed⟩, ?_⟩
    rintro b ⟨m', hm', hshadowed'⟩
    refine ht.single b a k ?_ ?_
    · rw [Tree.coverOf, hm', ← hshadowed']
      rfl
    · rw [Tree.coverOf, hm, ← hshadowed]
      rfl

theorem booked_new (id : NamespaceId) (settings : Settings) (now : Time) :
    Booked (new id settings now).tree (new id settings now).mounts := by
  refine ⟨fun v r s hv => ?_, fun r hr => ?_, List.Pairwise.nil, fun k hk hd => ?_⟩
  · cases v with
    | zero => cases hv
    | succ v => cases hv
  · cases hr
  · cases k with
    | zero => cases hd
    | succ k => cases hk

/-- **No mount is lost or leaked.** Whatever has happened to a fresh namespace, the records in its list and the mounts in
its arena correspond one to one, the list is in order of mounting, every detached vertex is covered by one mount, and
the vertices are those in reach of the root and one more for each mount. -/
theorem run_booked (id : NamespaceId) (settings : Settings) (now : Time) (events : List Event) :
    Account ((new id settings now).run events) ((new id settings now).deeds events) := by
  have hfresh := (good_new id settings now).tree
  have hpasses := run_passes hfresh events
  have hstart : InOrder (new id settings now) [] :=
    ⟨List.Sublist.refl _, List.Pairwise.nil, fun r hr => by cases hr⟩
  obtain ⟨hbooked, horder⟩ := Passes.keeps (motive := fun ns deeds => Booked ns.tree ns.mounts ∧ InOrder ns deeds)
    hfresh ⟨booked_new id settings now, hstart⟩
    (fun _ _ _ _ _ _ edit h => ⟨booked_edit h.1 edit, inOrder_edit h.2 edit⟩) hpasses
  exact account_of_booked (hpasses.stacked hfresh).toSound hbooked horder

end Namespace

end MountSpace

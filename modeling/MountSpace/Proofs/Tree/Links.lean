/-
Parent links and child lists as one structure. `Linked` says that the two agree, that no child stands in a list twice,
that every link hangs below the root, and that a vertex outside the tree has no links at all. Each step that rewires
keeps it:
- `linked_append`: a new leaf below a vertex of the tree;
- `linked_remove`: a leaf taken out;
- `linked_splice`: a vertex of the tree swapped with one outside it;
- `Linked.congr`: anything that leaves the root and all links as they are.

`Reaches` is the way down, through lists of children. Under `Linked` it leads to exactly the attached vertices
(`Linked.isAttached_iff_reaches`), and the way up from them ends at the root (`Linked.ascends`), so there is no cycle.
-/
import MountSpace.Proofs.Tree.Views
import Mathlib.Tactic.Set

namespace MountSpace.Tree

/-- reachable from the root through lists of children -/
inductive Reaches (t : Tree) : NodeId → Prop where
  | root : Reaches t t.root
  | child {p c : NodeId} (hp : Reaches t p) (hc : c ∈ t.childrenOf p) : Reaches t c

/-- the vertex so many parents up, if there are so many -/
def ancestor (t : Tree) : Nat → NodeId → Option NodeId
  | 0, id => some id
  | n + 1, id => (t.parentOf id).bind (t.ancestor n)

structure Linked (t : Tree) : Prop where
  rootPresent : (t.get? t.root).isSome
  rootFree : t.parentOf t.root = none
  linked : ∀ p c, t.parentOf c = some p ↔ c ∈ t.childrenOf p
  once : ∀ p, (t.childrenOf p).Nodup
  hangs : ∀ c p, t.parentOf c = some p → t.Reaches c
  bare : ∀ id, t.isAttached id = false → t.childrenOf id = []

namespace Linked

variable {t : Tree}

theorem reaches (h : t.Linked) {id : NodeId} (ha : t.isAttached id = true) : t.Reaches id := by
  rcases (t.isAttached_iff id).1 ha with rfl | ⟨p, hp⟩
  · exact .root
  · exact h.hangs id p hp

theorem attached (h : t.Linked) {id : NodeId} (hr : t.Reaches id) : t.isAttached id = true := by
  cases hr with
  | root => exact (t.isAttached_iff _).2 (.inl rfl)
  | child hp hc => exact (t.isAttached_iff _).2 (.inr ⟨_, (h.linked _ _).2 hc⟩)

theorem isAttached_iff_reaches (h : t.Linked) (id : NodeId) : t.isAttached id = true ↔ t.Reaches id :=
  ⟨h.reaches, h.attached⟩

theorem present (h : t.Linked) {id : NodeId} (ha : t.isAttached id = true) : (t.get? id).isSome := by
  rcases (t.isAttached_iff id).1 ha with rfl | ⟨p, hp⟩
  · exact h.rootPresent
  · exact get?_isSome_of_parentOf hp

theorem lt_nextId (h : t.Linked) {id : NodeId} (ha : t.isAttached id = true) : id < t.nextId := by
  obtain ⟨v, hv⟩ := Option.isSome_iff_exists.1 (h.present ha)
  exact lt_nextId_of_get? hv

/-- a child's parent is attached, for a vertex outside the tree has no children -/
theorem attached_parent (h : t.Linked) {p c : NodeId} (hc : c ∈ t.childrenOf p) : t.isAttached p = true := by
  cases ha : t.isAttached p with
  | true => rfl
  | false => rw [h.bare p ha] at hc; cases hc

/-- no vertex is its own parent: on the way down to it the first step into it would come from itself -/
theorem ne_parent (h : t.Linked) (id : NodeId) : t.parentOf id ≠ some id := by
  intro hs
  have hr := h.hangs id id hs
  induction hr with
  | root => rw [h.rootFree] at hs; cases hs
  | child hp hc ih =>
    have hpc := (h.linked _ _).2 hc
    rw [hs] at hpc
    cases hpc
    exact ih hs

/-- the way up from any attached vertex ends at the root -/
theorem ascends (h : t.Linked) {id : NodeId} (ha : t.isAttached id = true) : ∃ n, t.ancestor n id = some t.root := by
  induction h.reaches ha with
  | root => exact ⟨0, rfl⟩
  | child hp hc ih =>
    obtain ⟨n, hn⟩ := ih (h.attached hp)
    exact ⟨n + 1, by rw [ancestor, (h.linked _ _).2 hc, Option.bind_some, hn]⟩

theorem swap (h : t.Linked) {e r : NodeId} (he : t.isAttached e = true) (hr : (t.get? r).isSome)
    (hd : t.isAttached r = false) : t.Swap e r where
  present := h.present he
  vacant := hr
  ne := fun hne => by rw [hne, he] at hd; cases hd
  bare := h.bare r hd
  notChild := fun hc => by
    rw [(t.isAttached_iff r).2 (.inr ⟨e, (h.linked e r).2 hc⟩)] at hd; cases hd
  notParent := fun hp => by
    have hc := (h.linked r e).1 hp
    rw [h.bare r hd] at hc; cases hc
  noLoop := fun hc => h.ne_parent e ((h.linked e e).2 hc)
  noSelf := h.ne_parent e

theorem congr (h : t.Linked) {u : Tree} (hr : u.root = t.root) (hroot : (u.get? u.root).isSome)
    (hp : ∀ k, u.parentOf k = t.parentOf k) (hc : ∀ k, u.childrenOf k = t.childrenOf k) : u.Linked := by
  have reaches : ∀ k, t.Reaches k → u.Reaches k := by
    intro k hk
    induction hk with
    | root => rw [← hr]; exact .root
    | child _ hm ih => exact .child ih (by rw [hc]; exact hm)
  refine ⟨hroot, by rw [hr, hp, h.rootFree], fun p c => by rw [hp, hc, h.linked], fun p => by rw [hc]; exact h.once p,
    fun c p hcp => reaches c (h.hangs c p (by rw [← hp]; exact hcp)), fun id hid => ?_⟩
  rw [hc]
  refine h.bare id ?_
  rw [isAttached_eq_false] at hid ⊢
  rwa [hr, hp] at hid

end Linked

/-! ## What hangs nowhere comes and goes freely -/

variable {t : Tree}

theorem parentOf_nextId (t : Tree) : t.parentOf t.nextId = none := by
  simp [parentOf, t.get?_of_nextId_le (Nat.le_refl _)]

theorem childrenOf_nextId (t : Tree) : t.childrenOf t.nextId = [] := by
  simp [childrenOf, t.get?_of_nextId_le (Nat.le_refl _)]

theorem parentOf_push_free (t : Tree) (n : Node) (k : NodeId) : (t.push ⟨n, none, []⟩).parentOf k = t.parentOf k := by
  rw [parentOf_push]
  split
  · next h => rw [h, parentOf_nextId]
  · rfl

theorem childrenOf_push_free (t : Tree) (n : Node) (k : NodeId) :
    (t.push ⟨n, none, []⟩).childrenOf k = t.childrenOf k := by
  rw [childrenOf_push]
  split
  · next h => rw [h, childrenOf_nextId]
  · rfl

theorem linked_push (h : t.Linked) (n : Node) : (t.push ⟨n, none, []⟩).Linked := by
  refine h.congr rfl ?_ (parentOf_push_free t n) (childrenOf_push_free t n)
  rw [get?_push]
  split
  · rfl
  · exact h.rootPresent

theorem linked_drop (h : t.Linked) {id : NodeId} (hd : t.isAttached id = false) : (t.drop id).Linked := by
  obtain ⟨hne, hp⟩ := (t.isAttached_eq_false id).1 hd
  refine h.congr rfl ?_ (fun k => ?_) (fun k => ?_)
  · show ((t.drop id).get? t.root).isSome
    rw [get?_drop, if_neg hne]
    exact h.rootPresent
  · rw [parentOf_drop]
    split
    · next hk => rw [← hk, hp]
    · rfl
  · rw [childrenOf_drop]
    split
    · next hk => rw [← hk, h.bare id hd]
    · rfl

/-! ## A leaf more, a leaf less -/

theorem linked_append (h : t.Linked) {p : NodeId} (hp : t.isAttached p = true) (node : Node) (now : Time) :
    ((t.push ⟨node, some p, []⟩).withChildren p now (· ++ [t.nextId])).Linked := by
  set u := (t.push ⟨node, some p, []⟩).withChildren p now (· ++ [t.nextId])
  have hpn : p ≠ t.nextId := Nat.ne_of_lt (h.lt_nextId hp)
  have hpar : ∀ k, u.parentOf k = if k = t.nextId then some p else t.parentOf k := fun k => by
    rw [parentOf_withChildren, parentOf_push]
  have hchi : ∀ k, u.childrenOf k = if k = p then t.childrenOf p ++ [t.nextId] else t.childrenOf k := by
    intro k
    rw [childrenOf_withChildren, childrenOf_push, get?_push]
    by_cases hk : k = p
    · subst hk; simp [hpn, h.present hp]
    · rw [if_neg (fun hc => hk hc.1.symm), if_neg hk]
      split
      · next hn => rw [hn, childrenOf_nextId]
      · rfl
  have hnew : ∀ q, t.nextId ∉ t.childrenOf q := fun q hq => by
    have := (h.linked q t.nextId).2 hq
    rw [parentOf_nextId] at this; cases this
  have hroot : t.root ≠ t.nextId := Nat.ne_of_lt (h.lt_nextId ((t.isAttached_iff _).2 (.inl rfl)))
  have keep : ∀ k, t.Reaches k → u.Reaches k := by
    intro k hk
    induction hk with
    | root => exact .root
    | @child q c _ hm ih =>
      refine .child ih ?_
      rw [hchi]
      split
      · next hq => subst hq; exact List.mem_append_left _ hm
      · exact hm
  refine ⟨?_, ?_, fun q c => ?_, fun q => ?_, fun c q hcq => ?_, fun id hid => ?_⟩
  · show (u.get? t.root).isSome
    rw [← node?_isSome, node?_withChildren, touched, node?_push, if_neg hroot]
    split
    · rw [Option.isSome_map, node?_isSome]; exact h.rootPresent
    · rw [node?_isSome]; exact h.rootPresent
  · show u.parentOf t.root = none
    rw [hpar, if_neg hroot, h.rootFree]
  · rw [hpar, hchi]
    by_cases hc : c = t.nextId
    · subst hc
      by_cases hq : q = p
      · subst hq; simp
      · simp only [if_true, if_neg hq, Option.some.injEq]
        exact ⟨fun he => absurd he.symm hq, fun hm => absurd hm (hnew q)⟩
    · rw [if_neg hc, h.linked]
      by_cases hq : q = p
      · subst hq; simp [hc]
      · rw [if_neg hq]
  · rw [hchi]
    split
    · exact List.nodup_append.2 ⟨h.once p, List.nodup_singleton _, fun a ha b hb hab => by
        rw [List.mem_singleton] at hb; subst hab; subst hb; exact hnew p ha⟩
    · exact h.once q
  · rw [hpar] at hcq
    split at hcq
    · next hc =>
      subst hc
      refine .child (keep p (h.reaches hp)) ?_
      rw [hchi, if_pos rfl]
      exact List.mem_append_right _ (List.mem_singleton.2 rfl)
    · exact keep c (h.hangs c q hcq)
  · rw [isAttached_eq_false, hpar] at hid
    rw [hchi]
    split
    · next hq =>
      subst hq
      rw [if_neg hpn] at hid
      rw [(t.isAttached_eq_false id).2 hid] at hp
      cases hp
    · by_cases hn : id = t.nextId
      · rw [hn, childrenOf_nextId]
      · rw [if_neg hn] at hid
        exact h.bare id ((t.isAttached_eq_false id).2 hid)

theorem linked_remove (h : t.Linked) {id p : NodeId} (hp : t.parentOf id = some p) (hc : t.childrenOf id = [])
    (now : Time) : ((t.drop id).withChildren p now (·.filter (· ≠ id))).Linked := by
  set u := (t.drop id).withChildren p now (·.filter (· ≠ id))
  have hroot : id ≠ t.root := fun he => by rw [he, h.rootFree] at hp; cases hp
  have hpid : p ≠ id := fun he => h.ne_parent id (he ▸ hp)
  have hpar : ∀ k, u.parentOf k = if k = id then none else t.parentOf k := fun k => by
    rw [parentOf_withChildren, parentOf_drop]
    simp only [eq_comm]
  have hmem : ∀ q c, c ∈ u.childrenOf q ↔ c ≠ id ∧ c ∈ t.childrenOf q := by
    intro q c
    have hpres : (t.get? p).isSome := get?_isSome_of_mem_childrenOf ((h.linked p id).1 hp)
    rw [childrenOf_withChildren, childrenOf_drop, get?_drop]
    by_cases hq : p = q
    · subst hq; simp [Ne.symm hpid, hpres, and_comm]
    · rw [if_neg (fun hx => hq hx.1)]
      by_cases hqi : id = q
      · subst hqi; simp [hc]
      · rw [if_neg hqi]
        refine ⟨fun hm => ⟨fun he => ?_, hm⟩, fun hm => hm.2⟩
        have := (h.linked q c).2 hm
        rw [he, hp] at this
        exact hq (Option.some.inj this)
  have keep : ∀ k, t.Reaches k → k ≠ id → u.Reaches k := by
    intro k hk
    induction hk with
    | root => intro _; exact .root
    | @child q c _ hm ih =>
      intro hne
      have hq : q ≠ id := fun he => by rw [he, hc] at hm; cases hm
      exact .child (ih hq) ((hmem q c).2 ⟨hne, hm⟩)
  refine ⟨?_, ?_, fun q c => ?_, fun q => ?_, fun c q hcq => ?_, fun k hk => ?_⟩
  · show (u.get? t.root).isSome
    rw [← node?_isSome, node?_withChildren, touched, node?_drop, if_neg hroot]
    split
    · rw [Option.isSome_map, node?_isSome]; exact h.rootPresent
    · rw [node?_isSome]; exact h.rootPresent
  · show u.parentOf t.root = none
    rw [hpar, h.rootFree]
    split <;> rfl
  · rw [hpar, hmem, ← h.linked]
    split
    · next he => simp [he]
    · next he => simp [he]
  · rw [childrenOf_withChildren, childrenOf_drop]
    split
    · split
      · exact List.Nodup.filter _ List.nodup_nil
      · exact List.Nodup.filter _ (h.once q)
    · split
      · exact List.nodup_nil
      · exact h.once q
  · rw [hpar] at hcq
    split at hcq
    · cases hcq
    · next hne => exact keep c (h.hangs c q hcq) hne
  · refine List.eq_nil_iff_forall_not_mem.2 fun c hm => ?_
    have hm' := ((hmem k c).1 hm).2
    have hka := h.attached_parent hm'
    rw [isAttached_eq_false, hpar] at hk
    by_cases hkid : k = id
    · rw [hkid, hc] at hm'; cases hm'
    · rw [if_neg hkid] at hk
      rw [(t.isAttached_eq_false k).2 hk] at hka
      cases hka

/-! ## Two vertices swapped -/

/-- without repetitions, replacing one element is renaming it -/
theorem replace_eq_map {l : List NodeId} (h : l.Nodup) (e r : NodeId) :
    l.replace e r = l.map fun x => if x = e then r else x := by
  induction l with
  | nil => rfl
  | cons a rest ih =>
    rw [List.nodup_cons] at h
    rw [List.replace_cons, List.map_cons]
    by_cases ha : e = a
    · subst ha
      have hrest : (rest.map fun x => if x = e then r else x) = rest.map id := by
        refine List.map_congr_left fun x hx => if_neg ?_
        rintro rfl
        exact h.1 hx
      rw [hrest, List.map_id]
      simp
    · rw [beq_eq_false_iff_ne.2 ha, if_neg (Ne.symm ha), ih h.2]

theorem mem_replace {l : List NodeId} (h : l.Nodup) {e r : NodeId} (hr : r ∉ l) (x : NodeId) :
    x ∈ l.replace e r ↔ (x = r ∧ e ∈ l) ∨ (x ≠ e ∧ x ∈ l) := by
  rw [replace_eq_map h, List.mem_map]
  constructor
  · rintro ⟨y, hy, rfl⟩
    by_cases hye : y = e
    · subst hye; simp [hy]
    · simp [hye, hy]
  · rintro (⟨rfl, he⟩ | ⟨hne, hx⟩)
    · exact ⟨e, he, if_pos rfl⟩
    · exact ⟨x, hx, if_neg hne⟩

theorem nodup_replace {l : List NodeId} (h : l.Nodup) {e r : NodeId} (hr : r ∉ l) : (l.replace e r).Nodup := by
  rw [replace_eq_map h]
  refine List.Nodup.map_on (fun x hx y hy hxy => ?_) h
  split_ifs at hxy with h1 h2 h2
  · rw [h1, h2]
  · exact absurd (hxy ▸ hy) hr
  · exact absurd (hxy ▸ hx) hr
  · exact hxy

/-- a splice renames one vertex in the lists of children -/
theorem childrenOf_splice_map (h : t.Linked) {e r : NodeId} (he : t.isAttached e = true)
    (hr : (t.get? r).isSome) (hd : t.isAttached r = false) {k : NodeId} (hke : k ≠ e) (hkr : k ≠ r) :
    (t.splice e r).childrenOf k = (t.childrenOf k).map fun c => if c = e then r else c := by
  rw [childrenOf_splice (h.swap he hr hd), if_neg hke, if_neg hkr]
  split
  · exact replace_eq_map (h.once k) e r
  · next hp =>
    have hne : ∀ c ∈ t.childrenOf k, (if c = e then r else c) = id c := by
      intro c hc
      refine if_neg fun hce => hp ?_
      rw [← hce]
      exact (h.linked k c).2 hc
    rw [List.map_congr_left hne, List.map_id]

section Splice

variable {e r : NodeId} (h : t.Linked) (he : t.isAttached e = true) (hr : (t.get? r).isSome)
  (hd : t.isAttached r = false)
include h he hr hd

theorem root_splice_linked : (t.splice e r).root = if t.root = e then r else t.root := by
  rw [root_splice_eq (h.swap he hr hd)]
  by_cases hre : t.root = e
  · rw [if_pos hre, if_pos ⟨by rw [← hre, h.rootFree], hre⟩]
  · rw [if_neg hre, if_neg fun hx => hre hx.2]

theorem parentOf_splice_linked (k : NodeId) :
    (t.splice e r).parentOf k = if k = e then none else if k = r then t.parentOf e
      else if t.parentOf k = some e then some r else t.parentOf k := by
  rw [parentOf_splice (h.swap he hr hd)]
  simp only [← h.linked]
  by_cases hk : t.parentOf k = some e
  · simp [hk, get?_isSome_of_parentOf hk]
  · simp [hk]

theorem isAttached_splice (k : NodeId) :
    (t.splice e r).isAttached k = true ↔ k = r ∨ (k ≠ e ∧ t.isAttached k = true) := by
  have hre : r ≠ e := (h.swap he hr hd).ne
  obtain ⟨hrr, hrp⟩ := (t.isAttached_eq_false r).1 hd
  rw [isAttached_iff, root_splice_linked h he hr hd, parentOf_splice_linked h he hr hd, isAttached_iff]
  by_cases hke : k = e
  · subst hke
    by_cases hroot : t.root = k
    · simp [hroot, Ne.symm hre]
    · simp [hroot, Ne.symm hroot, Ne.symm hre]
  by_cases hkr : k = r
  · subst hkr
    simp only [hke, if_false, if_true, true_or, iff_true]
    rcases (t.isAttached_iff e).1 he with rfl | hp
    · simp
    · exact .inr hp
  · simp only [hke, hkr, if_false, false_or, ne_eq, not_false_eq_true, true_and]
    refine or_congr ?_ ?_
    · by_cases hroot : t.root = e
      · simp [hroot, hkr, hke]
      · simp [hroot]
    · split
      · next hp => simp [hp]
      · exact Iff.rfl

/-- the way down to a vertex, with the one swapped in where the other stood -/
theorem reaches_splice {k : NodeId} (hk : t.Reaches k) : (t.splice e r).Reaches (if k = e then r else k) := by
  have hs := h.swap he hr hd
  induction hk with
  | root =>
    have hroot := root_splice_linked h he hr hd
    rw [← hroot]
    exact .root
  | @child p c hp hm ih =>
    refine .child ih ?_
    rw [childrenOf_splice hs]
    have hpr : p ≠ r := fun hpr => by rw [hpr, hs.bare] at hm; cases hm
    by_cases hpe : p = e
    · subst hpe
      have hce : c ≠ p := fun hce => hs.noLoop (hce ▸ hm)
      rw [if_pos rfl, if_neg hs.ne, if_pos rfl, if_neg hce]
      exact hm
    · rw [if_neg hpe, if_neg hpe, if_neg hpr]
      have hrm : r ∉ t.childrenOf p := fun hx => by
        rw [(t.isAttached_iff r).2 (.inr ⟨p, (h.linked p r).2 hx⟩)] at hd; cases hd
      by_cases hce : c = e
      · subst hce
        rw [if_pos rfl, if_pos ((h.linked p c).2 hm)]
        exact (mem_replace (h.once p) hrm r).2 (.inl ⟨rfl, hm⟩)
      · rw [if_neg hce]
        split
        · exact (mem_replace (h.once p) hrm c).2 (.inr ⟨hce, hm⟩)
        · exact hm

theorem linked_splice : (t.splice e r).Linked := by
  have hs := h.swap he hr hd
  have hre := hs.ne
  have hroot := root_splice_linked h he hr hd
  have hpar := parentOf_splice_linked h he hr hd
  have hchi := fun k => childrenOf_splice hs k
  obtain ⟨hrr, hrp⟩ := (t.isAttached_eq_false r).1 hd
  have hrm : ∀ q, r ∉ t.childrenOf q := fun q hx => by rw [← h.linked, hrp] at hx; cases hx
  refine ⟨?_, ?_, fun p c => ?_, fun p => ?_, fun c p hcp => ?_, fun id hid => ?_⟩
  · rw [← node?_isSome, node?_splice, node?_isSome, hroot]
    split
    · exact hr
    · exact h.rootPresent
  · rw [hroot, hpar]
    by_cases hte : t.root = e
    · rw [if_pos hte, if_neg hre, if_pos rfl, ← hte, h.rootFree]
    · rw [if_neg hte, if_neg hte, if_neg (Ne.symm hrr), h.rootFree]
      simp
  · rw [hpar, hchi]
    by_cases hpe : p = e
    · subst hpe
      simp only [if_true, List.not_mem_nil, iff_false]
      split_ifs with h1 h2 h3
      · exact fun hx => by cases hx
      · exact h.ne_parent p
      · exact fun hx => hre (Option.some.inj hx)
      · exact h3
    by_cases hpr : p = r
    · subst hpr
      rw [if_neg hre, if_pos rfl, ← h.linked]
      by_cases hce : c = e
      · subst hce; simp [h.ne_parent c]
      by_cases hcr : c = p
      · subst hcr
        simp only [hce, if_false, if_true, hrp]
        exact ⟨fun hx => absurd hx hs.notParent, fun hx => by cases hx⟩
      · by_cases hpc : t.parentOf c = some e
        · simp [hce, hcr, hpc]
        · simp only [hce, hcr, hpc, if_false, iff_false]
          intro hx
          have := (h.linked p c).1 hx
          rw [hs.bare] at this; cases this
    · rw [if_neg hpe, if_neg hpr]
      have hold : c ∈ (if t.parentOf e = some p then (t.childrenOf p).replace e r else t.childrenOf p) ↔
          (c = r ∧ t.parentOf e = some p) ∨ (c ≠ e ∧ t.parentOf c = some p) := by
        split
        · next hx => rw [mem_replace (h.once p) (hrm p), ← h.linked, ← h.linked]
        · next hx =>
          rw [← h.linked]
          refine ⟨fun hy => .inr ⟨fun hce => hx (hce ▸ hy), hy⟩, ?_⟩
          rintro (⟨-, hy⟩ | ⟨-, hy⟩)
          · exact absurd hy hx
          · exact hy
      rw [hold]
      by_cases hce : c = e
      · subst hce; simp [Ne.symm hre]
      by_cases hcr : c = r
      · subst hcr; simp [hce, hrp]
      · by_cases hpc : t.parentOf c = some e
        · simp [hce, hcr, hpc, Ne.symm hpe, Ne.symm hpr]
        · simp [hce, hcr, hpc]
  · rw [hchi]
    split_ifs
    · exact List.nodup_nil
    · exact h.once e
    · exact nodup_replace (h.once p) (hrm p)
    · exact h.once p
  · have hca := (isAttached_splice h he hr hd c).1 ((isAttached_iff _ c).2 (.inr ⟨p, hcp⟩))
    rcases hca with rfl | ⟨hce, hca⟩
    · have := reaches_splice h he hr hd (h.reaches he)
      rwa [if_pos rfl] at this
    · have := reaches_splice h he hr hd (h.reaches hca)
      rwa [if_neg hce] at this
  · have hna : ¬(id = r ∨ (id ≠ e ∧ t.isAttached id = true)) := by
      rw [← isAttached_splice h he hr hd, hid]; exact Bool.false_ne_true
    rw [not_or, not_and, Bool.not_eq_true] at hna
    rw [hchi]
    by_cases hie : id = e
    · rw [if_pos hie]
    · rw [if_neg hie, if_neg hna.1, if_neg, h.bare id (hna.2 hie)]
      intro hx
      have := h.attached_parent ((h.linked id e).1 hx)
      rw [hna.2 hie] at this; cases this

end Splice

/-! ## A new vertex in the place of an old one -/

theorem isAttached_push_free (t : Tree) (n : Node) (k : NodeId) :
    (t.push ⟨n, none, []⟩).isAttached k = t.isAttached k := by
  unfold isAttached
  rw [parentOf_push_free]
  rfl

theorem isAttached_nextId (h : t.Linked) : t.isAttached t.nextId = false := by
  rw [isAttached_eq_false]
  have hr := h.lt_nextId ((t.isAttached_iff t.root).2 (.inl rfl))
  exact ⟨Ne.symm (Nat.ne_of_lt hr), parentOf_nextId t⟩

/-- the tree with a new vertex in the place of `e`, and `e` left outside -/
def supplant (t : Tree) (e : NodeId) (node : Node) : Tree := (t.push ⟨node, none, []⟩).splice e t.nextId

section Supplant

variable {e : NodeId} (h : t.Linked) (he : t.isAttached e = true) (node : Node)
include h he

theorem swap_push : (t.push ⟨node, none, []⟩).Swap e t.nextId := by
  refine (linked_push h node).swap ?_ ?_ ?_
  · rw [isAttached_push_free]; exact he
  · rw [get?_push, if_pos rfl]; rfl
  · rw [isAttached_push_free]; exact isAttached_nextId h

theorem linked_supplant : (t.supplant e node).Linked := by
  refine linked_splice (linked_push h node) ?_ ?_ ?_
  · rw [isAttached_push_free]; exact he
  · rw [get?_push, if_pos rfl]; rfl
  · rw [isAttached_push_free]; exact isAttached_nextId h

theorem isAttached_supplant (k : NodeId) :
    (t.supplant e node).isAttached k = true ↔ k = t.nextId ∨ (k ≠ e ∧ t.isAttached k = true) := by
  rw [← isAttached_push_free t node k]
  refine isAttached_splice (linked_push h node) ?_ ?_ ?_ k
  · rw [isAttached_push_free]; exact he
  · rw [get?_push, if_pos rfl]; rfl
  · rw [isAttached_push_free]; exact isAttached_nextId h

end Supplant

theorem node?_supplant (t : Tree) (e : NodeId) (node : Node) (k : NodeId) :
    (t.supplant e node).node? k = if k = t.nextId then some node else t.node? k := by
  rw [supplant, node?_splice, node?_push]

end MountSpace.Tree

/-
What any sequence of calls on a tree keeps. The caller is free: any vertex numbers, any names, directories put in the
place of anything, the root mounted over and replaced. Only two things are asked of it (`Call.Proper`): what is appended
is a directory, and a mount names the vertex it takes the place of as the one it shadows.

`Sound` is the invariant that carries the induction: the links of `Linked`, and every shadowed vertex waits, detached
and for one mount alone (`Covered`). Without the last part an unmount could pull a vertex out of the tree or bring one
back twice. Each call keeps it (`sound_after`), failing calls as well, since without an answer nothing has happened.

Main result: `calls_keep_arena`, the shape of the arena after every run of calls together with the numbers given out:
they only grow, every vertex bears one of them, and a number whose vertex is gone stays unused.
-/
import MountSpace.Proofs.Tree.Frames
import MountSpace.Proofs.Tree.Links

namespace MountSpace

/-- the vertex a mount covers; a directory covers none -/
def Node.covers : Node → Option NodeId
  | directory _ => none
  | mount m => some m.shadowed

@[simp] theorem Node.covers_touch (now : Time) (n : Node) : (n.touch now).covers = n.covers := by cases n <;> rfl

@[simp] theorem Node.covers_setName (name : String) (n : Node) : (n.setName name).covers = n.covers := by
  cases n <;> rfl

namespace Tree

/-- one call on a tree, with the moment of those that read the clock -/
inductive Call where
  | append (parent : NodeId) (dir : Directory) (now : Time)
  | delete (id : NodeId) (now : Time)
  | replace (existing : NodeId) (node : Node)
  | unmount (id : NodeId)
  | rename (id : NodeId) (name : String) (now : Time)
  deriving DecidableEq, Repr

/-- a mount is put in the place of the vertex it shadows -/
def Call.Proper : Call → Prop
  | .replace e node => ∀ s, node.covers = some s → s = e
  | _ => True

/-- the tree after a call -/
def after (t : Tree) : Call → Tree
  | .append parent dir now => ((t.append parent (.directory dir) now).map Prod.snd).getD t
  | .delete id now => (t.deleteIfEmpty id now).getD t
  | .replace e node => ((t.replaceWith e node).map Prod.snd).getD t
  | .unmount id => (t.unmount id).getD t
  | .rename id name now => (t.rename id name now).getD t

/-- the number a call answers with -/
def given (t : Tree) : Call → Option NodeId
  | .append parent dir now => (t.append parent (.directory dir) now).map Prod.fst
  | .replace e node => (t.replaceWith e node).map Prod.fst
  | _ => none

/-- the tree after some calls -/
def runCalls (t : Tree) (calls : List Call) : Tree := calls.foldl after t

/-- the numbers that calls answer with, in order -/
def givenOut (t : Tree) : List Call → List NodeId
  | [] => []
  | call :: calls => (t.given call).toList ++ (t.after call).givenOut calls

theorem runCalls_append (t : Tree) (before later : List Call) :
    t.runCalls (before ++ later) = (t.runCalls before).runCalls later :=
  List.foldl_append

/-! ## The invariant -/

/-- the vertex that a vertex covers as a mount -/
def coverOf (t : Tree) (id : NodeId) : Option NodeId := (t.node? id).bind Node.covers

/-- every covered vertex waits in the arena, detached, and for one mount alone -/
structure Covered (t : Tree) : Prop where
  waits : ∀ a s, t.coverOf a = some s → (t.get? s).isSome ∧ t.isAttached s = false
  single : ∀ a b s, t.coverOf a = some s → t.coverOf b = some s → a = b

structure Sound (t : Tree) : Prop extends Linked t, Covered t

theorem coverOf_touched (t : Tree) (p : NodeId) (now : Time) (k : NodeId) :
    (t.touched p now k).bind Node.covers = t.coverOf k := by
  unfold touched coverOf
  split
  · cases t.node? k with
    | none => rfl
    | some n => exact n.covers_touch now
  · rfl

theorem isSome_touched (t : Tree) (p : NodeId) (now : Time) (k : NodeId) :
    (t.touched p now k).isSome = (t.get? k).isSome := by
  unfold touched
  split
  · rw [Option.isSome_map, node?_isSome]
  · rw [node?_isSome]

/-- covering is kept by a step that lets go of no covered vertex, attaches none and covers no other -/
theorem Covered.mono {t u : Tree} (h : t.Covered) (hc : ∀ a s, u.coverOf a = some s → t.coverOf a = some s)
    (hp : ∀ a s, u.coverOf a = some s → (t.get? s).isSome → (u.get? s).isSome)
    (ha : ∀ a s, u.coverOf a = some s → t.isAttached s = false → u.isAttached s = false) : u.Covered where
  waits := fun a s hs => ⟨hp a s hs (h.waits a s (hc a s hs)).1, ha a s hs (h.waits a s (hc a s hs)).2⟩
  single := fun a b s hsa hsb => h.single a b s (hc a s hsa) (hc b s hsb)

/-! ## One call -/

section Step

variable {t : Tree} (h : t.Sound)
include h

theorem sound_append {p : NodeId} (hp : t.isAttached p = true) (dir : Directory) (now : Time) :
    ((t.push ⟨.directory dir, some p, []⟩).withChildren p now (· ++ [t.nextId])).Sound := by
  set u := (t.push ⟨.directory dir, some p, []⟩).withChildren p now (· ++ [t.nextId])
  have hcov : ∀ k, u.coverOf k = if k = t.nextId then none else t.coverOf k := fun k => by
    rw [coverOf, node?_withChildren, coverOf_touched, coverOf, node?_push]
    split <;> rfl
  have hsub : ∀ a s, u.coverOf a = some s → t.coverOf a = some s := fun a s hs => by
    rw [hcov] at hs
    split at hs
    · cases hs
    · exact hs
  have hold : ∀ a s, u.coverOf a = some s → s ≠ t.nextId := fun a s hs hn => by
    have hs := (h.waits a s (hsub a s hs)).1
    rw [hn, t.get?_of_nextId_le (Nat.le_refl _)] at hs
    cases hs
  refine ⟨linked_append h.toLinked hp _ now, h.toCovered.mono hsub (fun a s hs hp => ?_) (fun a s hs ha => ?_)⟩
  · rw [← node?_isSome, node?_withChildren, isSome_touched, get?_push, if_neg (hold a s hs)]
    exact hp
  · rw [isAttached_eq_false] at ha ⊢
    refine ⟨ha.1, ?_⟩
    rw [parentOf_withChildren, parentOf_push, if_neg (hold a s hs)]
    exact ha.2

theorem sound_remove {id p : NodeId} {dir : Directory} (hv : t.get? id = some ⟨.directory dir, some p, []⟩)
    (now : Time) : ((t.drop id).withChildren p now (·.filter (· ≠ id))).Sound := by
  set u := (t.drop id).withChildren p now (·.filter (· ≠ id))
  have hpar : t.parentOf id = some p := parentOf_of_get? hv
  have hatt : t.isAttached id = true := (t.isAttached_iff id).2 (.inr ⟨p, hpar⟩)
  have hsub : ∀ a s, u.coverOf a = some s → t.coverOf a = some s := fun a s hs => by
    rw [coverOf, node?_withChildren, coverOf_touched, coverOf, node?_drop] at hs
    split at hs
    · cases hs
    · exact hs
  have hold : ∀ a s, u.coverOf a = some s → id ≠ s := fun a s hs he => by
    have hd := (h.waits a s (hsub a s hs)).2
    rw [← he, hatt] at hd
    cases hd
  refine ⟨linked_remove h.toLinked hpar (childrenOf_of_get? hv) now,
    h.toCovered.mono hsub (fun a s hs hp => ?_) (fun a s hs ha => ?_)⟩
  · rw [← node?_isSome, node?_withChildren, isSome_touched, get?_drop, if_neg (hold a s hs)]
    exact hp
  · rw [isAttached_eq_false] at ha ⊢
    refine ⟨ha.1, ?_⟩
    rw [parentOf_withChildren, parentOf_drop, if_neg (hold a s hs)]
    exact ha.2

theorem sound_rename {id : NodeId} (f : Node → Node) (hf : ∀ n, (f n).covers = n.covers) :
    (t.update id fun v => { v with node := f v.node }).Sound := by
  set u := t.update id fun v => { v with node := f v.node }
  have hpar : ∀ k, u.parentOf k = t.parentOf k := fun k => parentOf_update t id k fun _ => rfl
  have hchi : ∀ k, u.childrenOf k = t.childrenOf k := fun k => by
    have hc := childrenOf_update t id k (f := fun v => { v with node := f v.node }) (fun l => l) fun _ => rfl
    rw [ite_self] at hc
    exact hc
  have hget : ∀ k, (u.get? k).isSome = (t.get? k).isSome := fun k => by
    rw [get?_update]
    split
    · rw [Option.isSome_map]
    · rfl
  have hcov : ∀ k, u.coverOf k = t.coverOf k := fun k => by
    rw [coverOf, coverOf, node?_update, node?]
    split
    · cases t.get? k with
      | none => rfl
      | some v => exact hf v.node
    · rfl
  refine ⟨h.toLinked.congr rfl (by rw [hget]; exact h.rootPresent) hpar hchi,
    h.toCovered.mono (fun a s hs => by rwa [hcov] at hs) (fun a s _ hp => by rwa [hget]) fun a s _ ha => ?_⟩
  rw [isAttached_eq_false] at ha ⊢
  rw [hpar]
  exact ha

/-- a new vertex in the place of `e`, and `e` left outside -/
theorem sound_supplant {e : NodeId} (he : t.isAttached e = true) {node : Node}
    (hn : ∀ s, node.covers = some s → s = e) : (t.supplant e node).Sound := by
  have hcov : ∀ k, (t.supplant e node).coverOf k = if k = t.nextId then node.covers else t.coverOf k := fun k => by
    rw [coverOf, node?_supplant]
    split <;> rfl
  have hget : ∀ k, (t.get? k).isSome → ((t.supplant e node).get? k).isSome := fun k hk => by
    rw [← node?_isSome, node?_supplant]
    split
    · rfl
    · rwa [node?_isSome]
  have hfree : ∀ k, k ≠ t.nextId → (k = e ∨ t.isAttached k = false) → (t.supplant e node).isAttached k = false := by
    intro k hkn hk
    rw [← Bool.not_eq_true, isAttached_supplant h.toLinked he]
    rintro (rfl | ⟨hke, ha⟩)
    · exact hkn rfl
    · rcases hk with rfl | hk
      · exact hke rfl
      · rw [ha] at hk; cases hk
  -- no older mount covers `e`, for what they cover is detached
  have hee : ∀ a, t.coverOf a ≠ some e := fun a ha => by
    have := (h.waits a e ha).2
    rw [he] at this; cases this
  refine ⟨linked_supplant h.toLinked he node, fun a s has => ?_, fun a b s has hbs => ?_⟩
  · rw [hcov] at has
    split at has
    · cases hn s has
      exact ⟨hget e (h.present he), hfree e (Nat.ne_of_lt (h.lt_nextId he)) (.inl rfl)⟩
    · obtain ⟨h1, h2⟩ := h.waits a s has
      refine ⟨hget s h1, hfree s (fun hsn => ?_) (.inr h2)⟩
      rw [hsn, t.get?_of_nextId_le (Nat.le_refl _)] at h1
      cases h1
  · rw [hcov] at has hbs
    split at has <;> split at hbs
    · next ha hb => rw [ha, hb]
    · cases hn s has
      exact absurd hbs (hee b)
    · cases hn s hbs
      exact absurd has (hee a)
    · exact h.single a b s has hbs

theorem sound_replace {e : NodeId} {node : Node} (hn : ∀ s, node.covers = some s → s = e) {id : NodeId} {u : Tree}
    (hu : t.replaceWith e node = some (id, u)) : u.Sound := by
  obtain ⟨-, he, hu⟩ := replaceWith_eq_some hu
  have hw := sound_supplant h he hn
  rw [hu]
  split
  · exact hw
  next hne =>
  -- what is dropped is covered by nobody: the new node is no mount, and the older mounts cover detached vertices
  have hwe : (t.supplant e node).isAttached e = false := by
    rw [← Bool.not_eq_true, isAttached_supplant h.toLinked he]
    rintro (hx | ⟨hx, -⟩)
    · exact Nat.ne_of_lt (h.lt_nextId he) hx
    · exact hx rfl
  have hsub : ∀ a s, ((t.supplant e node).drop e).coverOf a = some s → (t.supplant e node).coverOf a = some s := by
    intro a s hs
    rw [coverOf, node?_drop] at hs
    split at hs
    · cases hs
    · exact hs
  refine ⟨linked_drop hw.toLinked hwe, hw.toCovered.mono hsub (fun a s hs hp => ?_) (fun a s hs ha => ?_)⟩
  · have hse : e ≠ s := fun hes => by
      have hs := hsub a s hs
      rw [coverOf, node?_supplant] at hs
      split at hs
      · cases node with
        | directory d => cases hs
        | mount m => cases hes; exact hne hs
      · have := (h.waits a s hs).2
        rw [← hes, he] at this; cases this
    rw [get?_drop, if_neg hse]
    exact hp
  · rw [isAttached_eq_false] at ha ⊢
    refine ⟨ha.1, ?_⟩
    rw [parentOf_drop]
    split
    · rfl
    · exact ha.2

theorem sound_unmount {id : NodeId} {u : Tree} (hu : t.unmount id = some u) : u.Sound := by
  obtain ⟨m, hid, hm, hr, rfl⟩ := unmount_eq_some hu
  have hcid : t.coverOf id = some m.shadowed := by rw [coverOf, hm]; rfl
  have hd := (h.waits id m.shadowed hcid).2
  have hs := h.toLinked.swap hid hr hd
  have hw := linked_splice h.toLinked hid hr hd
  have hatt := isAttached_splice h.toLinked hid hr hd
  have hwid : (t.splice id m.shadowed).isAttached id = false := by
    rw [← Bool.not_eq_true, hatt]
    rintro (hx | ⟨hx, -⟩)
    · exact hs.ne hx.symm
    · exact hx rfl
  have hcov : ∀ k, ((t.splice id m.shadowed).drop id).coverOf k = if id = k then none else t.coverOf k := fun k => by
    rw [coverOf, node?_drop, node?_splice]
    split <;> rfl
  have hsub : ∀ a s, ((t.splice id m.shadowed).drop id).coverOf a = some s → id ≠ a ∧ t.coverOf a = some s := by
    intro a s has
    rw [hcov] at has
    split at has
    · cases has
    · next hne => exact ⟨hne, has⟩
  refine ⟨linked_drop hw hwid, h.toCovered.mono (fun a s has => (hsub a s has).2) (fun a s has hp => ?_)
    (fun a s has ha => ?_)⟩
  · have hsid : id ≠ s := fun he => by
      have := (h.waits a s (hsub a s has).2).2
      rw [← he, hid] at this; cases this
    rw [get?_drop, if_neg hsid, ← node?_isSome, node?_splice, node?_isSome]
    exact hp
  · obtain ⟨hne, hsa⟩ := hsub a s has
    have hsr : s ≠ m.shadowed := fun he => hne (h.single id a s (he ▸ hcid) hsa)
    have hws : (t.splice id m.shadowed).isAttached s = false := by
      rw [← Bool.not_eq_true, hatt]
      rintro (hx | ⟨-, hx⟩)
      · exact hsr hx
      · rw [ha] at hx; cases hx
    rw [isAttached_eq_false] at hws ⊢
    refine ⟨hws.1, ?_⟩
    rw [parentOf_drop]
    split
    · rfl
    · exact hws.2

/-- **One call**, whatever it is given, keeps the tree sound. -/
theorem sound_after {call : Call} (hc : call.Proper) : (t.after call).Sound := by
  cases call with
  | append p dir now =>
    cases hu : t.append p (.directory dir) now with
    | none => rw [after, hu]; exact h
    | some r =>
      obtain ⟨id, u⟩ := r
      obtain ⟨-, hp, -, rfl⟩ := append_eq_some hu
      rw [after, hu]
      exact sound_append h hp dir now
  | delete id now =>
    cases hu : t.deleteIfEmpty id now with
    | none => rw [after, hu]; exact h
    | some u =>
      obtain ⟨dir, p, -, hv, rfl⟩ := deleteIfEmpty_eq_some hu
      rw [after, hu]
      exact sound_remove h hv now
  | replace e node =>
    cases hu : t.replaceWith e node with
    | none => rw [after, hu]; exact h
    | some r =>
      obtain ⟨id, u⟩ := r
      rw [after, hu]
      exact sound_replace h hc hu
  | unmount id =>
    cases hu : t.unmount id with
    | none => rw [after, hu]; exact h
    | some u => rw [after, hu]; exact sound_unmount h hu
  | rename id name now =>
    cases hu : t.rename id name now with
    | none => rw [after, hu]; exact h
    | some u =>
      obtain ⟨-, rfl⟩ := rename_eq_some hu
      rw [after, hu]
      exact sound_rename h (fun n => (n.setName name).touch now) fun n => by simp

theorem sound_runCalls {calls : List Call} (hc : ∀ call ∈ calls, call.Proper) : (t.runCalls calls).Sound := by
  induction calls generalizing t with
  | nil => exact h
  | cons call rest ih =>
    rw [List.forall_mem_cons] at hc
    exact ih (sound_after h hc.1) hc.2

end Step

theorem sound_withRoot (root : Directory) : (withRoot root).Sound := by
  have hget : ∀ k, (withRoot root).get? k = if k = 0 then some ⟨.directory root, none, []⟩ else none := by
    intro k
    cases k with
    | zero => rfl
    | succ k => rfl
  have hpar : ∀ k, (withRoot root).parentOf k = none := fun k => by
    rw [parentOf, hget]
    split <;> rfl
  have hchi : ∀ k, (withRoot root).childrenOf k = [] := fun k => by
    rw [childrenOf, hget]
    split <;> rfl
  have hcov : ∀ k, (withRoot root).coverOf k = none := fun k => by
    rw [coverOf, node?, hget]
    split <;> rfl
  refine ⟨⟨rfl, hpar _, fun p c => ?_, fun p => ?_, fun c p hcp => ?_, fun id _ => hchi id⟩, fun a s hs => ?_,
    fun a b s hs _ => ?_⟩
  · rw [hpar, hchi]; simp
  · rw [hchi]; exact List.nodup_nil
  · rw [hpar] at hcp; cases hcp
  · rw [hcov] at hs; cases hs
  · rw [hcov] at hs; cases hs

/-! ## The numbers given out

A call is one of the requests of which it is known what they do to the numbers. -/

def Call.request : Call → Request
  | append parent dir now => .append parent (.directory dir) now
  | delete id now => .delete id now
  | replace existing node => .replace existing node
  | unmount id => .unmount id
  | rename id name now => .rename id name now

theorem after_eq_serve (t : Tree) (call : Call) : t.after call = (t.serve call.request).2 := by
  cases call with
  | append parent dir now =>
    rw [after, Call.request, serve, attempt]
    cases t.append parent (.directory dir) now <;> rfl
  | delete id now =>
    rw [after, Call.request, serve, attempt]
    cases t.deleteIfEmpty id now <;> rfl
  | replace existing node =>
    rw [after, Call.request, serve, attempt]
    cases t.replaceWith existing node <;> rfl
  | unmount id =>
    rw [after, Call.request, serve, attempt]
    cases t.unmount id <;> rfl
  | rename id name now =>
    rw [after, Call.request, serve, attempt]
    cases t.rename id name now <;> rfl

theorem given_eq_serve (t : Tree) (call : Call) : t.given call = (t.serve call.request).1.number? := by
  cases call with
  | append parent dir now =>
    rw [given, Call.request, serve, attempt]
    cases t.append parent (.directory dir) now <;> rfl
  | delete id now =>
    show none = _
    rw [Call.request, serve, attempt]
    cases t.deleteIfEmpty id now <;> rfl
  | replace existing node =>
    rw [given, Call.request, serve, attempt]
    cases t.replaceWith existing node <;> rfl
  | unmount id =>
    show none = _
    rw [Call.request, serve, attempt]
    cases t.unmount id <;> rfl
  | rename id name now =>
    show none = _
    rw [Call.request, serve, attempt]
    cases t.rename id name now <;> rfl

/-- what a call does to the numbers: it takes at most the next one, and leaves a number without a vertex as it is -/
structure Numbered (t : Tree) (call : Call) : Prop where
  fresh : ∀ id, t.given call = some id → id = t.nextId
  next : (t.after call).nextId = t.nextId + (t.given call).toList.length
  gone : ∀ k, k < t.nextId → t.node? k = none → (t.after call).node? k = none

theorem numbered (t : Tree) (call : Call) : t.Numbered call where
  fresh := fun id hid => by
    rw [given_eq_serve] at hid
    exact eq_nextId_of_serve hid
  next := by
    rw [after_eq_serve, given_eq_serve]
    exact t.nextId_serve call.request
  gone := fun k hk hn => by
    rw [after_eq_serve]
    exact node?_serve_eq_none call.request hk hn

/-- the numbers given out are the next ones, without a gap -/
theorem givenOut_eq_range' (t : Tree) (calls : List Call) :
    t.givenOut calls = List.range' t.nextId (t.givenOut calls).length ∧
      (t.runCalls calls).nextId = t.nextId + (t.givenOut calls).length := by
  induction calls generalizing t with
  | nil => exact ⟨rfl, rfl⟩
  | cons call rest ih =>
    obtain ⟨hnum, hnext, -⟩ := numbered t call
    obtain ⟨hrange, hrun⟩ := ih (t.after call)
    have hone : (t.given call).toList = List.range' t.nextId (t.given call).toList.length := by
      cases hg : t.given call with
      | none => rfl
      | some id => rw [hnum id hg]; rfl
    rw [givenOut, List.length_append]
    constructor
    · rw [hnext] at hrange
      rw [← List.range'_append_1, ← hone, ← hrange]
    · show ((t.after call).runCalls rest).nextId = _
      rw [hrun, hnext, Nat.add_assoc]

theorem gone_runCalls {t : Tree} (calls : List Call) {k : NodeId} (hk : k < t.nextId) (hg : t.node? k = none) :
    (t.runCalls calls).node? k = none := by
  induction calls generalizing t with
  | nil => exact hg
  | cons call rest ih =>
    obtain ⟨-, hnext, hgone⟩ := numbered t call
    refine ih ?_ (hgone k hk hg)
    rw [hnext]
    exact Nat.lt_add_right _ hk

/-! ## The arena -/

/-- the shape of an arena: one tree, and beside it the vertices that mounts cover -/
structure Arena (t : Tree) : Prop where
  root : (t.get? t.root).isSome ∧ t.parentOf t.root = none
  linked : ∀ p c, t.parentOf c = some p ↔ c ∈ t.childrenOf p
  once : ∀ p c, c ∈ t.childrenOf p → (t.childrenOf p).count c = 1
  /-- the way up from an attached vertex ends at the root -/
  ends : ∀ id, t.isAttached id = true → ∃ n, t.ancestor n id = some t.root
  bare : ∀ id, t.isAttached id = false → t.parentOf id = none ∧ t.childrenOf id = []
  waits : ∀ id m, t.node? id = some (.mount m) → (t.get? m.shadowed).isSome ∧ t.isAttached m.shadowed = false
  single : ∀ a b m n, t.node? a = some (.mount m) → t.node? b = some (.mount n) → m.shadowed = n.shadowed → a = b
  reached : ∀ id, t.isAttached id = true ↔ t.Reaches id

/-- no number is given out twice, every vertex bears a number given out, and a number whose vertex is gone stays
unused -/
structure NeverReuses (t : Tree) (calls : List Call) : Prop where
  increasing : (t.root :: t.givenOut calls).Pairwise (· < ·)
  numbered : ∀ id, ((t.runCalls calls).get? id).isSome → id ∈ t.root :: t.givenOut calls
  gone : ∀ before later, calls = before ++ later → ∀ id ∈ t.root :: t.givenOut before,
    (t.runCalls before).get? id = none → (t.runCalls calls).get? id = none

theorem Sound.arena {t : Tree} (h : t.Sound) : t.Arena where
  root := ⟨h.rootPresent, h.rootFree⟩
  linked := h.linked
  once := fun p _ hc => List.count_eq_one_of_mem (h.once p) hc
  ends := fun _ ha => h.ascends ha
  bare := fun id ha => ⟨((t.isAttached_eq_false id).1 ha).2, h.bare id ha⟩
  waits := fun id m hm => h.waits id m.shadowed (by rw [coverOf, hm]; rfl)
  single := fun a b m n ha hb hmn => h.single a b m.shadowed (by rw [coverOf, ha]; rfl) (by rw [coverOf, hb, hmn]; rfl)
  reached := h.isAttached_iff_reaches

theorem neverReuses_withRoot (root : Directory) (calls : List Call) : (withRoot root).NeverReuses calls := by
  have hnumbers : ∀ cs : List Call, (withRoot root).root :: (withRoot root).givenOut cs =
      List.range' 0 ((withRoot root).runCalls cs).nextId := by
    intro cs
    obtain ⟨hrange, hnext⟩ := (withRoot root).givenOut_eq_range' cs
    rw [hnext, hrange, List.length_range', show (withRoot root).nextId = 1 from rfl, Nat.add_comm 1, List.range'_succ]
    rfl
  refine ⟨?_, fun id hid => ?_, fun before later hsplit id hid hg => ?_⟩
  · rw [hnumbers]
    exact List.pairwise_lt_range'
  · obtain ⟨v, hv⟩ := Option.isSome_iff_exists.1 hid
    rw [hnumbers, List.mem_range'_1]
    exact ⟨Nat.zero_le _, by rw [Nat.zero_add]; exact lt_nextId_of_get? hv⟩
  · subst hsplit
    rw [hnumbers, List.mem_range'_1, Nat.zero_add] at hid
    have hgone := gone_runCalls later hid.2 (Option.map_eq_none_iff.2 hg)
    rw [runCalls_append]
    exact Option.map_eq_none_iff.1 hgone

/-- **The arena after any run of calls.** Parent links and child lists agree and form one tree over the attached
vertices, every other vertex has no links, every mount covers a detached vertex of its own, and no number comes back. -/
theorem calls_keep_arena (root : Directory) (calls : List Call) (hc : ∀ call ∈ calls, call.Proper) :
    ((withRoot root).runCalls calls).Arena ∧ (withRoot root).NeverReuses calls :=
  ⟨(sound_runCalls (sound_withRoot root) hc).arena, neverReuses_withRoot root calls⟩

/-- a directory below the root, two mounts over the root, a call that fails, the upper mount gone again and the
directory deleted through the lower one -/
def rootCovered : List Call :=
  [.append 0 (.new "a" 1) 1, .replace 0 (.mount ⟨"/", ⟨2, .root 1, ⟨.volume 0, .rootPath⟩⟩, .at 2, 0⟩),
    .replace 2 (.mount ⟨"/", ⟨3, .root 1, ⟨.volume 1, .rootPath⟩⟩, .at 3, 2⟩), .append 2 (.new "b" 4) 4, .unmount 3,
    .delete 1 5, .append 2 (.new "b" 6) 6, .rename 4 "c" 7]

theorem arena_rootCovered : (withRoot (.new "" 0)).givenOut rootCovered = [1, 2, 3, 4] ∧
    ((withRoot (.new "" 0)).runCalls rootCovered).Arena ∧ (withRoot (.new "" 0)).NeverReuses rootCovered := by
  have hc : ∀ call ∈ rootCovered, call.Proper := by
    simp [rootCovered, Call.Proper, Node.covers]
  exact ⟨by decide, calls_keep_arena _ rootCovered hc⟩

end Tree

end MountSpace

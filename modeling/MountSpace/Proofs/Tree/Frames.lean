/-
What a call on a tree touches. The caller is free altogether: any vertex numbers, nodes of either kind with any links to
what they shadow, and so also trees whose links have come apart, or that have lost their root.

A request that is refused leaves the tree as it is. One that is carried out (`Carried`) drops no vertex but the one it
names, brings one at most under the next number, and writes at most one of the nodes that stay: that of the parent whose
children change, or that of the vertex renamed. `served` says that every request comes to one of the two. From it follow
what one request leaves of each vertex (`touchesOnly`) and what any run of requests leaves of it (`node?_serveAll`): the
node is the first one with the changes along the way made on it, for a number whose vertex is gone stays unused.

Main result: `requests_touch_only_named`.
-/
import MountSpace.Proofs.Tree.Views

namespace MountSpace

/-- what no call changes of a node: its kind, the vertex it shadows, and two of its times -/
structure Node.Persists (n m : Node) : Prop where
  kind : m.isMount = n.isMount
  shadowed : m.shadowed = n.shadowed
  created : m.times.created = n.times.created
  accessed : m.times.accessed = n.times.accessed

theorem Node.Persists.refl (n : Node) : n.Persists n := ⟨rfl, rfl, rfl, rfl⟩

theorem Node.Persists.trans {l m n : Node} (h : l.Persists m) (h' : m.Persists n) : l.Persists n :=
  ⟨h'.kind.trans h.kind, h'.shadowed.trans h.shadowed, h'.created.trans h.created, h'.accessed.trans h.accessed⟩

theorem Node.persists_touch (n : Node) (now : Time) : n.Persists (n.touch now) := by
  cases n <;> exact ⟨rfl, rfl, rfl, rfl⟩

theorem Node.persists_setName (n : Node) (name : String) : n.Persists (n.setName name) := by
  cases n <;> exact ⟨rfl, rfl, rfl, rfl⟩

namespace Tree

/-- one call on a tree with any arguments, with the moment of those that read the clock -/
inductive Request where
  | append (parent : NodeId) (node : Node) (now : Time)
  | delete (id : NodeId) (now : Time)
  | replace (existing : NodeId) (node : Node)
  | unmount (id : NodeId)
  | rename (id : NodeId) (name : String) (now : Time)
  deriving DecidableEq, Repr

/-- what a call answers: the number of a vertex, if there is one, or whether it was done -/
inductive Reply where
  | vertex (id : Option NodeId)
  | done (done : Bool)
  deriving DecidableEq, Repr

/-- the answer is that there is no vertex, or that it was not done -/
def Reply.refuses : Reply → Bool
  | .vertex id => id.isNone
  | .done d => !d

/-- the number that is answered -/
def Reply.number? : Reply → Option NodeId
  | .vertex id => id
  | .done _ => none

/-- the answer to a request that goes through, and the tree after it -/
def attempt (t : Tree) : Request → Option (Reply × Tree)
  | .append parent node now => (t.append parent node now).map fun a => (.vertex (some a.1), a.2)
  | .delete id now => (t.deleteIfEmpty id now).map fun u => (.done true, u)
  | .replace existing node => (t.replaceWith existing node).map fun a => (.vertex (some a.1), a.2)
  | .unmount id => (t.unmount id).map fun u => (.done true, u)
  | .rename id name now => (t.rename id name now).map fun u => (.done true, u)

/-- the answer to a request that does not -/
def Request.refusal : Request → Reply
  | append .. | replace .. => .vertex none
  | delete .. | unmount _ | rename .. => .done false

/-- the answer to a request and the tree after it -/
def serve (t : Tree) (r : Request) : Reply × Tree := (t.attempt r).getD (r.refusal, t)

/-- the tree after some requests -/
def serveAll (t : Tree) (requests : List Request) : Tree := requests.foldl (fun t r => (t.serve r).2) t

/-! ## What a request names -/

/-- what a request needs to be carried out -/
def Admits (t : Tree) : Request → Prop
  | .append parent node _ => t.isAttached parent = true ∧ t.findChild parent node.name = none
  | .delete id _ =>
    id ≠ t.root ∧ (∃ d, t.node? id = some (.directory d)) ∧ (t.parentOf id).isSome ∧ t.childrenOf id = []
  | .replace existing _ => t.isAttached existing = true
  | .unmount id => t.isAttached id = true ∧ ∃ m, t.node? id = some (.mount m) ∧ (t.get? m.shadowed).isSome
  | .rename id _ _ => (t.node? id).isSome

namespace Request

/-- the vertex is taken out -/
def Drops (k : NodeId) : Request → Prop
  | append .. | rename .. => False
  | delete id _ | unmount id => id = k
  | replace existing node => existing = k ∧ node.shadowed ≠ some existing

/-- the node of the vertex that is put in -/
def brings : Request → Option Node
  | append _ node _ | replace _ node => some node
  | delete .. | unmount _ | rename .. => none

/-- the node of a vertex as the request leaves it: a parent whose children change and a vertex with another name are
changed at the moment of the call, and no other -/
def rewrites (t : Tree) (k : NodeId) (n : Node) : Request → Node
  | append parent _ now => if parent = k then n.touch now else n
  | delete id now => if t.parentOf id = some k then n.touch now else n
  | rename id name now => if id = k then (n.setName name).touch now else n
  | replace .. | unmount _ => n

theorem persists_rewrites (r : Request) (t : Tree) (k : NodeId) (n : Node) : n.Persists (r.rewrites t k n) := by
  cases r with
  | append parent node now =>
    rw [rewrites]
    split
    · exact n.persists_touch now
    · exact .refl n
  | delete id now =>
    rw [rewrites]
    split
    · exact n.persists_touch now
    · exact .refl n
  | rename id name now =>
    rw [rewrites]
    split
    · exact (n.persists_setName name).trans (Node.persists_touch _ now)
    · exact .refl n
  | replace existing node => exact .refl n
  | unmount id => exact .refl n

end Request

/-! ## One request -/

/-- the tree after a request that was carried out, told by the vertices that were there and those that were not -/
structure Carried (t : Tree) (r : Request) (u : Tree) : Prop where
  gone : ∀ k, r.Drops k → u.node? k = none
  kept : ∀ k n, ¬ r.Drops k → t.node? k = some n → u.node? k = some (r.rewrites t k n)
  fresh : ∀ k, ¬ r.Drops k → t.node? k = none →
    u.node? k = if k = t.nextId then r.brings.map (r.rewrites t k) else none
  next : u.nextId = t.nextId + r.brings.toList.length

/-- a vertex that is there is not under the next number -/
theorem ne_nextId {t : Tree} {k : NodeId} {n : Node} (h : t.node? k = some n) : k ≠ t.nextId :=
  Nat.ne_of_lt (lt_nextId_of_get? (get?_of_node? h))

theorem carried_append {t u : Tree} {p id : NodeId} {node : Node} {now : Time}
    (h : t.append p node now = some (id, u)) : t.Carried (.append p node now) u where
  gone := fun _ hk => hk.elim
  kept := fun k n _ hn => by
    rw [node?_append h, if_neg (ne_nextId hn), hn, Request.rewrites]
    split <;> rfl
  fresh := fun k _ hn => by
    rw [node?_append h, hn, Request.brings, Option.map_some, Request.rewrites]
    by_cases hp : p = k
    · rw [if_pos hp, if_pos hp, apply_ite (Option.map (Node.touch now))]
      rfl
    · rw [if_neg hp, if_neg hp]
  next := nextId_append h

theorem carried_delete {t u : Tree} {id : NodeId} {now : Time} (h : t.deleteIfEmpty id now = some u) :
    t.Carried (.delete id now) u := by
  obtain ⟨p, hp, hnodes⟩ := node?_delete h
  refine ⟨fun k hk => ?_, fun k n hk hn => ?_, fun k hk hn => ?_, nextId_delete h⟩
  · rw [hnodes, if_pos (show id = k from hk), Option.map_none, ite_self]
  · rw [hnodes, if_neg (show ¬ id = k from hk), hn, Request.rewrites, hp]
    by_cases hpk : p = k
    · rw [if_pos hpk, if_pos (congrArg some hpk)]
      rfl
    · rw [if_neg hpk, if_neg fun h => hpk (Option.some.inj h)]
  · rw [hnodes, hn, ite_self, Option.map_none, ite_self, Request.brings, Option.map_none, ite_self]

theorem carried_replace {t u : Tree} {e id : NodeId} {node : Node} (h : t.replaceWith e node = some (id, u)) :
    t.Carried (.replace e node) u where
  gone := fun k hk => by rw [node?_replaceWith h, if_pos (show e = k ∧ _ from hk)]
  kept := fun k n hk hn => by
    rw [node?_replaceWith h, if_neg (show ¬ (e = k ∧ _) from hk), if_neg (ne_nextId hn), hn]
    rfl
  fresh := fun k hk hn => by
    rw [node?_replaceWith h, if_neg (show ¬ (e = k ∧ _) from hk), hn]
    rfl
  next := nextId_replace h

theorem carried_unmount {t u : Tree} {id : NodeId} (h : t.unmount id = some u) : t.Carried (.unmount id) u where
  gone := fun k hk => by rw [node?_unmount h, if_pos (show id = k from hk)]
  kept := fun k n hk hn => by
    rw [node?_unmount h, if_neg (show ¬ id = k from hk), hn]
    rfl
  fresh := fun k _ hn => by rw [node?_unmount h, hn, ite_self, Request.brings, Option.map_none, ite_self]
  next := nextId_unmount h

theorem carried_rename {t u : Tree} {id : NodeId} {name : String} {now : Time} (h : t.rename id name now = some u) :
    t.Carried (.rename id name now) u where
  gone := fun _ hk => hk.elim
  kept := fun k n _ hn => by
    rw [node?_rename h, hn, Request.rewrites]
    split <;> rfl
  fresh := fun k _ hn => by
    rw [node?_rename h, hn, Option.map_none, ite_self, Request.brings, Option.map_none, ite_self]
  next := nextId_rename h

/-- the answer to a request that is carried out -/
def granted (t : Tree) : Request → Reply
  | .append .. | .replace .. => .vertex (some t.nextId)
  | .delete .. | .unmount _ | .rename .. => .done true

theorem refuses_granted (t : Tree) (r : Request) : (t.granted r).refuses = false := by cases r <;> rfl

theorem refuses_refusal (r : Request) : r.refusal.refuses = true := by cases r <;> rfl

theorem number?_granted (t : Tree) (r : Request) : (t.granted r).number? = r.brings.map fun _ => t.nextId := by
  cases r <;> rfl

theorem number?_refusal (r : Request) : r.refusal.number? = none := by cases r <;> rfl

theorem attempt_isSome_iff {t : Tree} {r : Request} : (t.attempt r).isSome ↔ t.Admits r := by
  cases r with
  | append p node now =>
    rw [attempt, Option.isSome_map, append_isSome, Bool.and_eq_true, Option.isNone_iff_eq_none]
    rfl
  | delete id now =>
    rw [attempt, Option.isSome_map]
    exact deleteIfEmpty_isSome_iff
  | replace e node =>
    rw [attempt, Option.isSome_map, replaceWith_isSome]
    rfl
  | unmount id =>
    rw [attempt, Option.isSome_map]
    exact unmount_isSome
  | rename id name now =>
    rw [attempt, Option.isSome_map, rename_isSome]
    rfl

theorem attempt_eq_some {t u : Tree} {r : Request} {reply : Reply} (h : t.attempt r = some (reply, u)) :
    reply = t.granted r ∧ t.Carried r u := by
  cases r with
  | append p node now =>
    obtain ⟨⟨id, v⟩, hv, heq⟩ := Option.map_eq_some_iff.1 h
    obtain ⟨rfl, -, -, -⟩ := append_eq_some hv
    cases heq
    exact ⟨rfl, carried_append hv⟩
  | delete id now =>
    obtain ⟨v, hv, heq⟩ := Option.map_eq_some_iff.1 h
    cases heq
    exact ⟨rfl, carried_delete hv⟩
  | replace e node =>
    obtain ⟨⟨id, v⟩, hv, heq⟩ := Option.map_eq_some_iff.1 h
    obtain ⟨rfl, -, -⟩ := replaceWith_eq_some hv
    cases heq
    exact ⟨rfl, carried_replace hv⟩
  | unmount id =>
    obtain ⟨v, hv, heq⟩ := Option.map_eq_some_iff.1 h
    cases heq
    exact ⟨rfl, carried_unmount hv⟩
  | rename id name now =>
    obtain ⟨v, hv, heq⟩ := Option.map_eq_some_iff.1 h
    cases heq
    exact ⟨rfl, carried_rename hv⟩

/-- a request is carried out where it can be, and otherwise refused with the tree as it was -/
theorem served (t : Tree) (r : Request) :
    (t.Admits r ∧ (t.serve r).1 = t.granted r ∧ t.Carried r (t.serve r).2) ∨
      (¬ t.Admits r ∧ (t.serve r).1 = r.refusal ∧ (t.serve r).2 = t) := by
  unfold serve
  cases h : t.attempt r with
  | none => exact .inr ⟨fun ha => absurd (attempt_isSome_iff.2 ha) (by rw [h]; exact Bool.false_ne_true), rfl, rfl⟩
  | some a =>
    obtain ⟨hreply, hu⟩ := attempt_eq_some h
    exact .inl ⟨attempt_isSome_iff.1 (by rw [h]; rfl), hreply, hu⟩

/-- the node of a vertex that a request finds and leaves there -/
theorem node?_serve {t : Tree} {r : Request} {k : NodeId} {n m : Node} (hn : t.node? k = some n)
    (hm : (t.serve r).2.node? k = some m) : m = if (t.serve r).1.refuses = true then n else r.rewrites t k n := by
  rcases t.served r with ⟨-, hreply, hu⟩ | ⟨-, hreply, hu⟩
  · have hstays : ¬ r.Drops k := by
      intro hk
      rw [hu.gone k hk] at hm
      cases hm
    rw [hreply, refuses_granted, if_neg Bool.false_ne_true]
    exact Option.some.inj (hm.symm.trans (hu.kept k n hstays hn))
  · rw [hreply, refuses_refusal, if_pos rfl]
    rw [hu] at hm
    exact Option.some.inj (hm.symm.trans hn)

/-- a number whose vertex is gone stays unused -/
theorem node?_serve_eq_none {t : Tree} (r : Request) {k : NodeId} (hk : k < t.nextId) (hn : t.node? k = none) :
    (t.serve r).2.node? k = none := by
  rcases t.served r with ⟨-, -, hu⟩ | ⟨-, -, hu⟩
  · by_cases hd : r.Drops k
    · exact hu.gone k hd
    · rw [hu.fresh k hd hn, if_neg (Nat.ne_of_lt hk)]
  · rw [hu]
    exact hn

/-- the number that is answered is the next one -/
theorem eq_nextId_of_serve {t : Tree} {r : Request} {id : NodeId} (h : (t.serve r).1.number? = some id) :
    id = t.nextId := by
  rcases t.served r with ⟨-, hreply, -⟩ | ⟨-, hreply, -⟩
  · rw [hreply, number?_granted] at h
    obtain ⟨_, -, rfl⟩ := Option.map_eq_some_iff.1 h
    rfl
  · rw [hreply, number?_refusal] at h
    cases h

/-- a number is used up with the answer that gives it -/
theorem nextId_serve (t : Tree) (r : Request) :
    (t.serve r).2.nextId = t.nextId + (t.serve r).1.number?.toList.length := by
  rcases t.served r with ⟨-, hreply, hu⟩ | ⟨-, hreply, hu⟩
  · rw [hreply, number?_granted, hu.next]
    cases r.brings <;> rfl
  · rw [hreply, number?_refusal, hu]
    rfl

theorem nextId_le_serve (t : Tree) (r : Request) : t.nextId ≤ (t.serve r).2.nextId := by
  rw [nextId_serve]
  exact Nat.le_add_right _ _

/-- what a request touches: nothing if it is refused, and otherwise the vertex it names and no other. The node of each
vertex that stays is the one it had, with the changes of that request. -/
structure TouchesOnly (t : Tree) (r : Request) : Prop where
  granted : t.Admits r → (t.serve r).1 = t.granted r
  refused : ¬ t.Admits r → (t.serve r).1 = r.refusal
  nothing : (t.serve r).1.refuses = true → (t.serve r).2 = t
  kept : ∀ k n m, t.node? k = some n → (t.serve r).2.node? k = some m →
    n.Persists m ∧ m = if (t.serve r).1.refuses = true then n else r.rewrites t k n
  dropped : ∀ k n, t.node? k = some n →
    ((t.serve r).2.node? k = none ↔ (t.serve r).1.refuses = false ∧ r.Drops k)
  added : ∀ k, t.node? k = none → ((t.serve r).2.node? k).isSome → (t.serve r).1.number? = some k

theorem touchesOnly (t : Tree) (r : Request) : t.TouchesOnly r where
  granted := fun ha => by
    rcases t.served r with ⟨-, hreply, -⟩ | ⟨hna, -, -⟩
    · exact hreply
    · exact absurd ha hna
  refused := fun hna => by
    rcases t.served r with ⟨ha, -, -⟩ | ⟨-, hreply, -⟩
    · exact absurd ha hna
    · exact hreply
  nothing := fun hr => by
    rcases t.served r with ⟨-, hreply, -⟩ | ⟨-, -, hu⟩
    · rw [hreply, refuses_granted] at hr
      cases hr
    · exact hu
  kept := fun k n m hn hm => by
    have heq := node?_serve hn hm
    refine ⟨?_, heq⟩
    rw [heq]
    split
    · exact .refl n
    · exact r.persists_rewrites t k n
  dropped := fun k n hn => by
    rcases t.served r with ⟨-, hreply, hu⟩ | ⟨-, hreply, hu⟩
    · rw [hreply, refuses_granted]
      refine ⟨fun hnone => ⟨rfl, ?_⟩, fun hd => hu.gone k hd.2⟩
      by_contra hd
      rw [hu.kept k n hd hn] at hnone
      cases hnone
    · rw [hreply, refuses_refusal, hu, hn]
      constructor
      · intro hnone
        cases hnone
      · rintro ⟨hdone, -⟩
        cases hdone
  added := fun k hn hsome => by
    rcases t.served r with ⟨-, hreply, hu⟩ | ⟨-, -, hu⟩
    · have hd : ¬ r.Drops k := by
        intro hd
        rw [hu.gone k hd] at hsome
        cases hsome
      rw [hu.fresh k hd hn] at hsome
      split at hsome
      · next hk =>
        rw [Option.isSome_map] at hsome
        obtain ⟨node, hnode⟩ := Option.isSome_iff_exists.1 hsome
        rw [hreply, number?_granted, hnode, hk]
        rfl
      · cases hsome
    · rw [hu, hn] at hsome
      cases hsome

/-! ## Any run of requests -/

/-- the node of a vertex with the changes of a run of requests made on it -/
def rewritten (k : NodeId) : Tree → Node → List Request → Node
  | _, n, [] => n
  | t, n, r :: rest => rewritten k (t.serve r).2 (if (t.serve r).1.refuses = true then n else r.rewrites t k n) rest

theorem node?_serveAll_eq_none {t : Tree} (requests : List Request) {k : NodeId} (hk : k < t.nextId)
    (hn : t.node? k = none) : (t.serveAll requests).node? k = none := by
  induction requests generalizing t with
  | nil => exact hn
  | cons r rest ih => exact ih (Nat.lt_of_lt_of_le hk (t.nextId_le_serve r)) (node?_serve_eq_none r hk hn)

/-- what a vertex that is there before and after a run of requests has become: it was there all along, and nothing
changed it but the requests that were carried out and named it or a child of it -/
theorem node?_serveAll {t : Tree} (requests : List Request) {k : NodeId} {n m : Node} (hn : t.node? k = some n)
    (hm : (t.serveAll requests).node? k = some m) : n.Persists m ∧ m = t.rewritten k n requests := by
  induction requests generalizing t n with
  | nil =>
    obtain rfl := Option.some.inj (hn.symm.trans hm)
    exact ⟨.refl n, rfl⟩
  | cons r rest ih =>
    cases hmid : (t.serve r).2.node? k with
    | none =>
      have hk : k < t.nextId := lt_nextId_of_get? (get?_of_node? hn)
      have hend := node?_serveAll_eq_none rest (Nat.lt_of_lt_of_le hk (t.nextId_le_serve r)) hmid
      exact absurd (hend.symm.trans hm) nofun
    | some x =>
      obtain ⟨hpersists, hx⟩ := (t.touchesOnly r).kept k n x hn hmid
      obtain ⟨hlater, hrun⟩ := ih hmid hm
      rw [hx] at hrun
      exact ⟨hpersists.trans hlater, hrun⟩

/-- **Calls touch only what they name.** In every state that calls can lead to, a further call is carried out or changes
nothing. It takes out no vertex but the one it names, adds none but the one it answers with, and of those that stay it
changes only the parent whose children it changes, at one time, or the vertex it gives another name. Over any run of
further calls the node of a vertex is the first one with these changes, and keeps its other times. -/
theorem requests_touch_only_named (root : Directory) (before later : List Request) (r : Request) :
    ((withRoot root).serveAll before).TouchesOnly r ∧
      ∀ k n m, ((withRoot root).serveAll before).node? k = some n →
        ((withRoot root).serveAll (before ++ later)).node? k = some m →
        n.Persists m ∧ m = ((withRoot root).serveAll before).rewritten k n later := by
  refine ⟨touchesOnly _ r, fun k n m hn hm => ?_⟩
  rw [serveAll, List.foldl_append] at hm
  exact node?_serveAll later hn hm

/-- a mount that names itself as what it shadows: it takes the root away with it, and a directory is appended under the
number of the root all the same -/
def rootLost : List Request :=
  [.replace 0 (.mount ⟨"m", ⟨1, .root 1, ⟨.volume 0, .rootPath⟩⟩, .at 1, 1⟩), .unmount 1,
    .append 1 (.directory (.new "a" 2)) 3]

/-- a child for that directory, which is refused its deletion then, and another name -/
def orphanRenamed : List Request := [.append 2 (.directory (.new "b" 4)) 5, .delete 2 6, .rename 2 "c" 7]

theorem rootLost_orphan_rewritten : ((withRoot (.new "" 0)).serveAll rootLost).node? 1 = none ∧
    ((withRoot (.new "" 0)).serveAll rootLost).TouchesOnly (.rename 1 "d" 8) ∧
    Node.Persists (.directory (.new "a" 2)) (.directory ⟨"c", ⟨2, 2, 7⟩, none⟩) ∧
    .directory ⟨"c", ⟨2, 2, 7⟩, none⟩ =
      ((withRoot (.new "" 0)).serveAll rootLost).rewritten 2 (.directory (.new "a" 2)) orphanRenamed := by
  obtain ⟨htouched, hrun⟩ := requests_touch_only_named (.new "" 0) rootLost orphanRenamed (.rename 1 "d" 8)
  exact ⟨by decide, htouched, hrun 2 _ _ (by decide) (by decide)⟩

end Tree

end MountSpace

/-
Directories made one in the other. Where the names of a path are missing from a directory on, they are made one below
the other, each in the directory made before it (`Chained`). One directory more is one step of such a chain, and what a
chain does to the tree follows from what a step does, by induction on the names:
- each of the names has a directory of its own that was not there before, with the next one in it and nothing else
  (`Chained.made`), and there are no other new vertices (`Chained.of_new`);
- what was found is found (`Chained.finds`), and a path ends differently only if it is one of those that lead to the
  directory or to one of the new ones (`Chained.sameEnd`).
-/
import MountSpace.Proofs.Tree.Ends

namespace MountSpace

namespace Tree

/-- a directory that names find, in a tree in order -/
structure Ground (t : Tree) (p : NodeId) (walked : List String) : Prop where
  sound : t.Sound
  apart : t.Apart
  found : t.Finds t.root walked p
  directory : ∃ d, t.node? p = some (.directory d)

/-- directories of these names made one in the other, the first in a given vertex -/
inductive Chained : Tree → NodeId → List String → Tree → Prop where
  | done {t : Tree} {p : NodeId} : Chained t p [] t
  | more {t mid u : Tree} {p : NodeId} {name : String} {rest : List String} (grown : t.Grown p name mid)
      (sound : mid.Sound) (on : Chained mid t.nextId rest u) : Chained t p (name :: rest) u

section Ground

variable {t u : Tree} {p : NodeId} {walked : List String} (g : t.Ground p walked)
include g

theorem Ground.attached : t.isAttached p = true :=
  g.found.attached g.sound.toLinked ((t.isAttached_iff _).2 (.inl rfl))

/-- the new directory is a directory to go on from -/
theorem Ground.grown {name : String} (hu : t.Grown p name u) (hs : u.Sound) :
    u.Ground t.nextId (walked ++ [name]) := by
  obtain ⟨d, hd⟩ := g.directory
  obtain ⟨hfound, hdirectory⟩ := hu.finds g.sound.toLinked g.found hd
  exact ⟨hs, apart_grown g.sound.toLinked g.apart hu, hfound, hdirectory⟩

omit g in
/-- on the way to a directory lie directories -/
theorem Ground.above {front rest : List String} (g : t.Ground p (front ++ rest)) : ∃ v, t.Ground v front := by
  obtain ⟨v, hfront, hrest⟩ := finds_append.1 g.found
  refine ⟨v, g.sound, g.apart, hfront, ?_⟩
  cases hrest with
  | here => exact g.directory
  | down node _ _ => exact ⟨_, node⟩

theorem Ground.resolve {path : AbsolutePath} (hnames : path.names = walked) (ext : External) :
    ∃ d, t.resolve ext path = .ok (.directory p d) := by
  obtain ⟨d, hd⟩ := g.directory
  exact ⟨d, (hnames ▸ g.found).resolve hd ext⟩

end Ground

/-- a vertex with one child lists the name of the child -/
theorem listTree_singleton {t : Tree} {v c : NodeId} {name : String} (hc : t.childrenOf v = [c])
    (hname : t.name? c = some name) : Namespace.listTree t v = [.directory name] := by
  obtain ⟨n, hn, rfl⟩ := Option.map_eq_some_iff.1 hname
  have hedges : t.edges v = [⟨v, c, n.name⟩] := by rw [edges, hc, List.filterMap_cons, hn]; rfl
  rw [Namespace.listTree, hedges, List.map_singleton, List.mergeSort_singleton]

theorem listTree_nil {t : Tree} {v : NodeId} (hc : t.childrenOf v = []) : Namespace.listTree t v = [] := by
  rw [Namespace.listTree, edges, hc, List.filterMap_nil, List.map_nil, List.mergeSort_nil]

namespace Chained

variable {t u : Tree} {p : NodeId} {names : List String} (hc : Chained t p names u)
include hc

/-! ## What stays -/

theorem root : u.root = t.root := by
  induction hc with
  | done => rfl
  | more grown _ _ ih => rw [ih, grown.root]

/-- the vertices that were there have the faces they had -/
theorem face {k : NodeId} (hk : k < t.nextId) : u.face? k = t.face? k := by
  induction hc with
  | done => rfl
  | more grown _ _ ih => rw [ih (Nat.lt_of_lt_of_le hk grown.next), grown.face, if_neg (Nat.ne_of_lt hk)]

theorem kept {k : NodeId} (hk : (t.node? k).isSome) : (u.node? k).isSome := by
  induction hc with
  | done => exact hk
  | more grown _ _ ih => exact ih (grown.kept hk)

/-- the vertices that were there have the children they had, but for the one that the chain hangs on -/
theorem children {k : NodeId} (hk : k < t.nextId) (hne : k ≠ p) : u.childrenOf k = t.childrenOf k := by
  induction hc with
  | done => rfl
  | more grown _ _ ih =>
    rw [ih (Nat.lt_of_lt_of_le hk grown.next) (Nat.ne_of_lt hk), grown.children, if_neg hne]

theorem finds (h : t.Linked) {id v : NodeId} {way : List String} (hv : t.Finds id way v) : u.Finds id way v := by
  induction hc with
  | done => exact hv
  | more grown sound _ ih => exact ih sound.toLinked (hv.grown grown h)

/-! ## What is new -/

variable {walked : List String} (g : t.Ground p walked)
include g

/-- the last of the directories is a directory to go on from -/
theorem ground : ∃ last, u.Ground last (walked ++ names) := by
  induction hc generalizing walked with
  | done => exact ⟨_, by rw [List.append_nil]; exact g⟩
  | more grown sound _ ih =>
    obtain ⟨last, hlast⟩ := ih (g.grown grown sound)
    exact ⟨last, by rwa [List.append_assoc] at hlast⟩

/-- in a vertex that had no children is the first directory alone -/
theorem listed (bare : t.childrenOf p = []) : Namespace.listTree u p = (names.take 1).map .directory := by
  cases hc with
  | done => exact listTree_nil bare
  | @more _ mid _ _ name rest grown sound on =>
    have hp : p < t.nextId := g.sound.lt_nextId g.attached
    have hnew : t.nextId < mid.nextId := sound.lt_nextId (g.grown grown sound).attached
    have hchildren : u.childrenOf p = [t.nextId] := by
      rw [on.children (Nat.lt_trans hp hnew) (Nat.ne_of_lt hp), grown.children, if_pos rfl, bare]
      rfl
    refine listTree_singleton hchildren ?_
    rw [name?_eq_face, on.face hnew, ← name?_eq_face, grown.name?, if_pos rfl]

/-- **Each name of a chain has a new directory of its own**, with the next one in it and nothing else. -/
theorem made {made : List String} (hpre : made <+: names) (hne : made ≠ []) : ∃ v, u.Ground v (walked ++ made) ∧
    t.node? v = none ∧ Namespace.listTree u v = ((names.drop made.length).take 1).map .directory := by
  induction hc generalizing walked made with
  | done => exact absurd (List.prefix_nil.1 hpre) hne
  | @more t mid u p name rest grown sound on ih =>
    obtain ⟨first, after, rfl⟩ := List.exists_cons_of_ne_nil hne
    obtain ⟨rfl, hafter⟩ := List.cons_prefix_cons.1 hpre
    have g' := g.grown grown sound
    cases after with
    | nil =>
      obtain ⟨last, hlast⟩ := on.ground g'
      obtain ⟨v, hv⟩ := hlast.above
      have hsame : v = t.nextId := hv.found.same (on.root ▸ on.finds sound.toLinked g'.found) rfl
      subst hsame
      refine ⟨t.nextId, hv, ?_, on.listed g' (grown.bare g.sound.toLinked)⟩
      rw [node?, t.get?_of_nextId_le (Nat.le_refl _)]
      rfl
    | cons next more =>
      obtain ⟨v, hv, hnew, hlisted⟩ := ih g' hafter (List.cons_ne_nil _ _)
      refine ⟨v, by rwa [List.append_assoc] at hv, ?_, hlisted⟩
      cases hold : t.node? v with
      | none => rfl
      | some n =>
        have hmid := grown.kept (Option.isSome_of_eq_some hold)
        rw [hnew] at hmid
        cases hmid

/-- there are no other new vertices -/
theorem of_new {v : NodeId} (hv : (u.node? v).isSome) (hnew : t.node? v = none) :
    ∃ made, made <+: names ∧ made ≠ [] ∧ u.Finds u.root (walked ++ made) v := by
  induction hc generalizing walked with
  | done =>
    rw [hnew] at hv
    cases hv
  | @more t mid u p name rest grown sound on ih =>
    have g' := g.grown grown sound
    cases hmid : mid.node? v with
    | none =>
      obtain ⟨made, hpre, -, hfound⟩ := ih g' hv hmid
      refine ⟨name :: made, List.cons_prefix_cons.2 ⟨rfl, hpre⟩, List.cons_ne_nil _ _, ?_⟩
      rwa [List.append_assoc] at hfound
    | some n =>
      -- the step has made one vertex
      have hface : mid.face? v = some n.face := by rw [face?, hmid]; rfl
      have hlast : v = t.nextId := by
        by_contra hother
        rw [grown.face, if_neg hother, face?, hnew] at hface
        cases hface
      refine ⟨[name], List.cons_prefix_cons.2 ⟨rfl, List.nil_prefix⟩, List.cons_ne_nil _ _, ?_⟩
      rw [hlast, on.root]
      exact on.finds sound.toLinked g'.found

/-- **A chain ends no path differently but those that lead to what it hangs on or to what is new.** -/
theorem sameEnd {path : AbsolutePath} (hvalid : ∀ n ∈ path.names, nameFault? n = none)
    (hnot : ¬ foldNames path.names <+: foldNames (walked ++ names)) (ext : External) :
    SameEnd (t.resolve ext path) (u.resolve ext path) := by
  induction hc generalizing walked with
  | done => exact .of_eq rfl
  | @more t mid u p name rest grown sound on ih =>
    obtain ⟨d, hd⟩ := g.directory
    rw [← List.singleton_append, ← List.append_assoc] at hnot
    have hstep : SameEnd (t.resolve ext path) (mid.resolve ext path) := by
      refine grown.sameEnd g.sound.toLinked g.apart sound.toLinked g.found hd hvalid (fun heq => hnot ?_) ext
      rw [heq, foldNames_append (walked ++ [name])]
      exact List.prefix_append _ _
    exact hstep.trans (ih (g.grown grown sound) hnot)

end Chained

end Tree

end MountSpace

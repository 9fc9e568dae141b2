/-
The names in a namespace. Below one vertex no two names are equal apart from case, among children in view and under
mounts; every name but that of the root is valid; and a mount bears the name of what it covers, so taking it away brings
no name back that could collide. The tree asks about none of this when it renames and splices: a rename is kept from a
taken name by the look-up before it, which finds no child of the name but the directory itself.

Main result: `run_distinct`.
-/
import MountSpace.Proofs.Space.Runs

namespace MountSpace

namespace Tree

/-- names apart below every vertex, all of them valid, and each mount under the name of what it covers -/
structure Distinct (t : Tree) : Prop where
  apart : ∀ p, (t.childrenOf p).Pairwise fun a b => ∃ m n, t.node? a = some m ∧ t.node? b = some n ∧
    Text.sameName m.name n.name = false
  valid : ∀ id n, id ≠ t.root → t.node? id = some n → checkName n.name = .ok ()
  alike : ∀ id m, t.node? id = some (.mount m) → (t.node? m.shadowed).map Node.name = some m.name

theorem distinct_of_apart {t : Tree} (h : t.Stacked) (ha : t.Apart) (hn : t.Named) : t.Distinct := by
  refine ⟨fun p => ?_, ?_, h.alike⟩
  · have hnode : ∀ c ∈ t.childrenOf p, ∃ n, t.node? c = some n := by
      intro c hc
      have hpresent := h.present (attached_of_child h.toLinked hc)
      rw [← node?_isSome] at hpresent
      exact Option.isSome_iff_exists.1 hpresent
    refine List.Pairwise.imp_of_mem ?_ (h.once p)
    intro a b hpa hpb hab
    obtain ⟨m, hm⟩ := hnode a hpa
    obtain ⟨n, hn⟩ := hnode b hpb
    refine ⟨m, n, hm, hn, ?_⟩
    rw [Text.sameName, beq_eq_false_iff_ne]
    intro hsame
    refine hab (ha p a b hpa hpb ?_)
    rw [key?, key?, name?, name?, hm, hn]
    exact congrArg some hsame
  · intro id n hid hnode
    have hvalid : nameFault? n.name = none := hn.valid id n.name hid (by rw [name?, hnode]; rfl)
    rw [checkName, hvalid]

end Tree

namespace Namespace

variable {ns next : Namespace} {deed : Option Deed}

/-- an edit keeps names apart -/
theorem apart_edit (h : ns.tree.Stacked) (ha : ns.tree.Apart) (edit : Edit ns deed next) : next.tree.Apart := by
  cases edit with
  | grow edit valid => exact Tree.apart_grown h.toLinked ha edit
  | prune edit => exact Tree.apart_pruned ha edit
  | rename edit below free => exact Tree.apart_renamed h.toLinked ha edit below free
  | mount edit below named =>
    exact Tree.apart_swapped h.toLinked ha edit.toSwapped (edit.keepsNames h.toLinked named)
  | unmount edit => exact Tree.apart_swapped h.toLinked ha edit.toSwapped (edit.keepsNames h)
  | close => exact ha

/-- an edit keeps names valid and the root bare -/
theorem named_edit (h : ns.tree.Stacked) (hn : ns.tree.Named) (edit : Edit ns deed next) : next.tree.Named := by
  cases edit with
  | grow edit valid =>
    refine hn.of_names edit.root (by rw [edit.actAt, hn.rootBare]) fun k name hname => ?_
    rw [edit.name?] at hname
    split at hname
    · cases hname
      exact .inr valid
    · exact .inl hname
  | prune edit =>
    refine hn.of_names edit.root (by rw [edit.actAt, hn.rootBare]) fun k name hname => ?_
    rw [edit.name?] at hname
    split at hname
    · cases hname
    · exact .inl hname
  | rename edit below free valid =>
    have hid := h.present (Tree.attached_of_child h.toLinked below)
    refine hn.of_names edit.root (by rw [edit.actAt, hn.rootBare]) fun k name hname => ?_
    rw [edit.name? hid] at hname
    split at hname
    · cases hname
      exact .inr valid
    · exact .inl hname
  | @mount e m _ tree edit below named =>
    have hroot : tree.root = ns.tree.root := by rw [edit.root, Tree.put, if_neg (Ne.symm below)]
    have hold : ns.tree.root ≠ ns.tree.nextId := Nat.ne_of_lt (h.lt_nextId (Tree.attached_root ns.tree))
    refine hn.of_names hroot (by rw [edit.actAt, if_neg hold, hn.rootBare]) fun k name hname => ?_
    rw [edit.name?] at hname
    split at hname
    · rw [← named] at hname
      exact .inr (hn.valid e name below hname)
    · exact .inl hname
  | @unmount id m tree edit =>
    have hid : ns.tree.root ≠ id := by
      rintro rfl
      have hbare := hn.rootBare
      rw [Tree.actAt, edit.mount] at hbare
      cases hbare
    have hroot : tree.root = ns.tree.root := by rw [edit.root, Tree.put, if_neg hid]
    refine hn.of_names hroot (by rw [edit.actAt, if_neg hid, hn.rootBare]) fun k name hname => ?_
    rw [edit.name?] at hname
    split at hname
    · cases hname
    · exact .inl hname
  | close => exact hn

theorem apart_new (id : NamespaceId) (settings : Settings) (now : Time) : (new id settings now).tree.Apart := by
  intro p a b ha
  cases p with
  | zero => cases ha
  | succ p => cases ha

theorem named_new (id : NamespaceId) (settings : Settings) (now : Time) : (new id settings now).tree.Named := by
  refine ⟨rfl, fun k name hk hname => ?_⟩
  cases k with
  | zero => exact absurd rfl hk
  | succ k => cases hname

/-- whatever has happened to a fresh namespace, names are apart and valid -/
theorem run_apart (id : NamespaceId) (settings : Settings) (now : Time) (events : List Event) :
    ((new id settings now).run events).tree.Apart ∧ ((new id settings now).run events).tree.Named := by
  have hfresh := (good_new id settings now).tree
  have hpasses := run_passes hfresh events
  refine Passes.keeps (motive := fun ns _ => ns.tree.Apart ∧ ns.tree.Named) hfresh
    ⟨apart_new id settings now, named_new id settings now⟩ ?_ hpasses
  intro mid sofar deed next hmid _ edit hkept
  exact ⟨apart_edit hmid hkept.1 edit, named_edit hmid hkept.2 edit⟩

/-- **Sibling names stay unique.** Whatever has happened to a fresh namespace, no two children of a vertex have the same
name apart from case, every name but that of the root is valid, and every mount bears the name of what it covers. -/
theorem run_distinct (id : NamespaceId) (settings : Settings) (now : Time) (events : List Event) :
    ((new id settings now).run events).tree.Distinct := by
  have hfresh := (good_new id settings now).tree
  have hstacked := (run_passes hfresh events).stacked hfresh
  obtain ⟨hapart, hnamed⟩ := run_apart id settings now events
  exact Tree.distinct_of_apart hstacked hapart hnamed

end Namespace

end MountSpace

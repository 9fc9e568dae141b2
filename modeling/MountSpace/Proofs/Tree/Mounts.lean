/-
The mounts in view, each at the names that find it. Directories do not come between: one more of them, or a chain of
them, changes nothing about what is mounted where (`Chained.sameMounts`). A new mount is in view at its point, takes out
of view what is at the point and below it, and leaves all else as it is (`Mounted.overlaid`), also what is above it or
beside it.
-/
import MountSpace.Proofs.Space.Ledger
import MountSpace.Proofs.Tree.Chains

namespace MountSpace

namespace Tree

/-- the names find a mount, and this act of mounting has made it -/
def HasMount (t : Tree) (names : List String) (record : MountRecord) : Prop :=
  ∃ v s, t.Finds t.root names v ∧ t.actAt v = some (record, s)

/-- the same mounts are in view -/
def SameMounts (t u : Tree) : Prop := ∀ names record, u.HasMount names record ↔ t.HasMount names record

/-- one mount more is in view, at its point; what was there or below it is not, and nothing else is different -/
def Overlaid (t : Tree) (point : List String) (record : MountRecord) (u : Tree) : Prop :=
  ∀ names other, u.HasMount names other ↔ (foldNames names = foldNames point ∧ other = record) ∨
    (¬ foldNames point <+: foldNames names ∧ t.HasMount names other)

/-- names of which the first lead to one vertex, apart from case, find what the rest of them find from there -/
theorem Finds.split {t : Tree} {id mid last : NodeId} {front names : List String} (hfront : t.Finds id front mid)
    (hpre : foldNames front <+: foldNames names) (h : t.Finds id names last) :
    ∃ rest, foldNames names = foldNames front ++ foldNames rest ∧ t.Finds mid rest last := by
  obtain ⟨after, hafter⟩ := hpre
  obtain ⟨way, rest, rfl, hway, -⟩ := List.map_eq_append_iff.1 hafter.symm
  obtain ⟨here, hhere, hrest⟩ := finds_append.1 h
  cases hhere.same hfront hway
  refine ⟨rest, ?_, hrest⟩
  rw [foldNames_append]
  exact congrArg (· ++ foldNames rest) hway

section Views

variable {t : Tree} {names : List String} {record : MountRecord}

/-- where there is a mount, the path leads to it, whatever the filesystems answer -/
theorem HasMount.resolve {path : AbsolutePath} (h : t.HasMount path.names record) (ext : External) :
    ∃ v m, t.resolve ext path = .ok (.mount v m) ∧ m.record = record := by
  obtain ⟨v, s, hv, hact⟩ := h
  obtain ⟨m, hm, hrecord, -⟩ := actAt_eq_some.1 hact
  exact ⟨v, m, hv.resolve hm ext, hrecord⟩

theorem hasMount_of_finds {v : NodeId} {m : MountNode} (hv : t.Finds t.root names v)
    (hm : t.node? v = some (.mount m)) : t.HasMount names m.record :=
  ⟨v, m.shadowed, hv, actAt_eq_some.2 ⟨m, hm, rfl, rfl⟩⟩

theorem SameMounts.overlaid {mid u : Tree} {point : List String} (hsame : t.SameMounts mid)
    (hover : mid.Overlaid point record u) : t.Overlaid point record u := by
  intro names other
  rw [hover, hsame]

end Views

/-! ## Directories more -/

section Grown

variable {t u : Tree}

/-- a new directory neither is a mount nor leads to one -/
theorem Grown.sameMounts {p : NodeId} {front : List String} {name : String} (g : t.Ground p front)
    (hu : t.Grown p name u) (hs : u.Sound) : t.SameMounts u := by
  intro names record
  obtain ⟨d, hd⟩ := g.directory
  have hnew := (hu.finds g.sound.toLinked g.found hd).1
  constructor
  · rintro ⟨v, s, hv, hact⟩
    rw [hu.actAt] at hact
    refine ⟨v, s, ?_, hact⟩
    by_cases hpre : foldNames (front ++ [name]) <+: foldNames names
    · obtain ⟨rest, -, hrest⟩ := hnew.split hpre hv
      cases hrest with
      | here =>
        rw [actAt_nextId] at hact
        cases hact
      | down _ child _ =>
        rw [findChild, hu.bare g.sound.toLinked] at child
        cases child
    · exact (hu.finds_iff g.sound.toLinked g.apart hs.toLinked g.found hd hpre).2 hv
  · rintro ⟨v, s, hv, hact⟩
    rw [← hu.actAt] at hact
    refine ⟨v, s, ?_, hact⟩
    rw [hu.root]
    exact hv.grown hu g.sound.toLinked

/-- **Directories made one in the other change nothing about what is mounted where.** -/
theorem Chained.sameMounts {p : NodeId} {walked left : List String} (hc : t.Chained p left u)
    (g : t.Ground p walked) : t.SameMounts u := by
  induction hc generalizing walked with
  | done =>
    intro names record
    exact Iff.rfl
  | @more t mid u p name rest grown sound on ih =>
    intro names record
    calc u.HasMount names record ↔ mid.HasMount names record := ih (g.grown grown sound) names record
      _ ↔ t.HasMount names record := grown.sameMounts g sound names record

end Grown

/-! ## A mount more -/

section Mounted

variable {t u : Tree} {e : NodeId} {m : MountNode} {point : List String} (h : t.Linked) (ha : t.Apart)
  (hl : u.Linked) (hu : t.Mounted e m u) (hm : t.name? e = some m.name) (there : t.Finds t.root point e)

include h hu in
/-- but for the new mount, an attached vertex has the face it had -/
theorem Mounted.face_of_attached {k : NodeId} (hk : t.isAttached k = true) : u.face? k = t.face? k := by
  rw [hu.face, if_neg (Nat.ne_of_lt (h.lt_nextId hk))]

include h ha hu hm there

/-- ways that do not pass the point are still there -/
theorem Mounted.aside (hroot : e ≠ t.root) {names : List String} {v : NodeId}
    (hn : ¬ foldNames point <+: foldNames names) (hv : t.Finds t.root names v) : u.Finds u.root names v := by
  have hua : u.Apart := apart_swapped h ha hu.toSwapped (hu.keepsNames h hm)
  have hface : ∀ k, k ≠ e → k ≠ t.nextId → u.face? k = t.face? k := by
    intro k _ hk
    rw [hu.face, if_neg hk]
  have hattached : t.isAttached t.root = true := (t.isAttached_iff _).2 (.inl rfl)
  have past := there.elsewhere h hn
  have hsame : u.root = t.root := by rw [hu.root, put, if_neg hroot.symm]
  rw [hsame]
  exact hv.swapped past hua hu.toSwapped h hface hattached

/-- the new mount is found at the point -/
theorem Mounted.finds (hroot : e ≠ t.root) : u.Finds u.root point t.nextId := by
  have hpoint : point ≠ [] := by
    rintro rfl
    cases there
    exact hroot rfl
  obtain ⟨front, name, rfl⟩ : ∃ front name, point = front ++ [name] :=
    ⟨_, _, (List.dropLast_concat_getLast hpoint).symm⟩
  obtain ⟨p, hp, hlast⟩ := finds_append.1 there
  cases hlast with
  | @down _ c _ d _ _ node child on =>
    cases on
    have habove := not_prefix_above name (rfl : foldNames front = foldNames front)
    have hp' : u.Finds u.root front p := hu.aside h ha hm there hroot habove hp
    obtain ⟨d', hd'⟩ : ∃ d', u.node? p = some (.directory d') := by
      have hattached : t.isAttached p = true := hp.attached h ((t.isAttached_iff _).2 (.inl rfl))
      exact directory_of_face (hu.face_of_attached h hattached) node
    -- the mount stands in the list where the vertex stood, and bears its name
    obtain ⟨hmem, own, hown, hfold⟩ := findChild_eq_some child
    have hpe : p ≠ e := there.ne h habove hp
    have hchild := hu.toSwapped.child h hmem
    rw [put, put, if_pos rfl, if_neg hpe] at hchild
    have hua : u.Apart := apart_swapped h ha hu.toSwapped (hu.keepsNames h hm)
    have hkey : u.key? t.nextId = some (Text.fold name) := by
      rw [hm] at hown
      cases hown
      rw [key?, hu.name?, if_pos rfl, Option.map_some, hfold]
    exact hp'.snoc hd' (hua.findChild hchild hkey)

include hl

/-- what is not at the point or below it is found as before -/
theorem Mounted.finds_iff (hroot : e ≠ t.root) {names : List String} {v : NodeId}
    (hn : ¬ foldNames point <+: foldNames names) : u.Finds u.root names v ↔ t.Finds t.root names v := by
  refine ⟨fun hv => ?_, hu.aside h ha hm there hroot hn⟩
  have past := (hu.finds h ha hm there hroot).elsewhere hl hn
  have hsame : u.root = t.root := by rw [hu.root, put, if_neg hroot.symm]
  rw [hsame] at hv past
  apply hv.kept (· ≠ t.nextId) past
  · intro k d hk hd
    exact directory_of_face (by rw [hu.face, if_neg hk]) hd
  · intro k c name hk hc hchild
    refine ha.findChild_of hchild ?_ (by rw [hu.name?, if_neg hc])
    -- neither the parent nor the child stands in for another vertex
    obtain ⟨p, x, hx, hkp, hcx⟩ := hu.toSwapped.of_child h (findChild_eq_some hchild).1
    have own : ∀ {a b : NodeId}, a ≠ t.nextId → a = put e t.nextId b → a = b := by
      intro a b hne hput
      rw [put] at hput
      split at hput
      · exact absurd hput hne
      · exact hput
    rw [own hk hkp, own hc hcx]
    exact hx

/-- **A new mount is in view at its point, hides what is there and below, and changes nothing else.** -/
theorem Mounted.overlaid (hroot : e ≠ t.root) : t.Overlaid point m.record u := by
  intro names record
  have hnew : u.Finds u.root point t.nextId := hu.finds h ha hm there hroot
  have hact : u.actAt t.nextId = some (m.record, e) := by rw [hu.actAt, if_pos rfl]
  by_cases hpre : foldNames point <+: foldNames names
  · -- a way on from the point would pass through the mount
    have hhere : u.HasMount names record ↔ foldNames names = foldNames point ∧ record = m.record := by
      constructor
      · rintro ⟨v, s, hv, hrecord⟩
        obtain ⟨rest, hfold, hrest⟩ := hnew.split hpre hv
        cases hrest with
        | here =>
          rw [hact] at hrecord
          cases hrecord
          exact ⟨by simpa [foldNames] using hfold, rfl⟩
        | down node _ _ =>
          rw [Tree.actAt, node] at hact
          cases hact
      · rintro ⟨hfold, rfl⟩
        exact ⟨t.nextId, e, hnew.congr hfold.symm, hact⟩
    simp [hhere, hpre]
  · have hne : foldNames names ≠ foldNames point := by
      intro hfold
      exact hpre (hfold ▸ List.prefix_refl _)
    have hiff : u.HasMount names record ↔ t.HasMount names record := by
      constructor
      · rintro ⟨v, s, hv, hrecord⟩
        have hv' := (hu.finds_iff h ha hl hm there hroot hpre).1 hv
        rw [hu.actAt, if_neg (hnew.ne hl hpre hv)] at hrecord
        exact ⟨v, s, hv', hrecord⟩
      · rintro ⟨v, s, hv, hrecord⟩
        have hold : v ≠ t.nextId := Nat.ne_of_lt (Namespace.lt_nextId_of_actAt hrecord)
        exact ⟨v, s, hu.aside h ha hm there hroot hpre hv, by rw [hu.actAt, if_neg hold, hrecord]⟩
    simp [hiff, hpre, hne]

end Mounted

end Tree

end MountSpace

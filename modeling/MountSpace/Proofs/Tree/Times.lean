/-
The times of last change. A change of the tree writes the time of one vertex that was there, or of none: the parent of a
directory that comes or goes, and a directory that gets another name. A vertex that is new gets the time of its making.
Mounting and taking a mount away write nothing in the vertices that were there, not even in the one that is covered.

As long as every reading of the clock is later than all before it, the times of a tree are apart and in the past
(`Stamped`). So a time tells which vertex it was read from, and whether that vertex was touched since (`Aged.differs`).

- `writes_append`, `writes_rename` and their like: the times after a change;
- `Aged.differs`: two times, read one after the other, differ exactly if they are of two vertices or the vertex was
  touched in between.
-/
import MountSpace.Proofs.Tree.Tandem

namespace MountSpace

namespace Tree

/-- the time of the last change of a vertex -/
def modified? (t : Tree) (v : NodeId) : Option Time := (t.node? v).map fun n => n.times.modified

/-- the times of the vertices are past, and no two have the same -/
structure Stamped (t : Tree) (now : Time) : Prop where
  past : ∀ v τ, t.modified? v = some τ → τ < now
  apart : ∀ v w τ, t.modified? v = some τ → t.modified? w = some τ → v = w

/-- a tree later than another, where some of the vertices that were there have been touched: these have a time since
then, as those that are new, and the others have the time they had -/
structure Aged (t : Tree) (since : Time) (touched : NodeId → Prop) (u : Tree) : Prop where
  next : t.nextId ≤ u.nextId
  time : ∀ v τ, v < t.nextId → u.modified? v = some τ →
    (t.modified? v = some τ ∧ ¬touched v) ∨ (since ≤ τ ∧ touched v)
  fresh : ∀ v τ, t.nextId ≤ v → u.modified? v = some τ → since ≤ τ

variable {t u : Tree} {now since : Time} {touched : NodeId → Prop}

theorem modified?_of_node? {v : NodeId} {n : Node} (h : t.node? v = some n) :
    t.modified? v = some n.times.modified := by
  rw [modified?, h]
  rfl

theorem modified?_lt {v : NodeId} {τ : Time} (h : t.modified? v = some τ) : v < t.nextId := by
  obtain ⟨n, hn, -⟩ := Option.map_eq_some_iff.1 h
  obtain ⟨x, hx, -⟩ := Option.map_eq_some_iff.1 hn
  exact lt_nextId_of_get? hx

/-! ## Times that are apart -/

theorem Stamped.mono (h : t.Stamped now) {later : Time} (hle : now ≤ later) : t.Stamped later :=
  ⟨fun v τ hv => lt_of_lt_of_le (h.past v τ hv) hle, h.apart⟩

/-- times that were there before -/
theorem Stamped.less (h : t.Stamped now) (hu : ∀ k τ, u.modified? k = some τ → t.modified? k = some τ) :
    u.Stamped now :=
  ⟨fun v τ hv => h.past v τ (hu v τ hv), fun v w τ hv hw => h.apart v w τ (hu v τ hv) (hu w τ hw)⟩

theorem stamped_withRoot (name : String) (now : Time) : (withRoot (.new name now)).Stamped (now + 1) := by
  have root : ∀ v τ, (withRoot (.new name now)).modified? v = some τ → v = 0 ∧ τ = now := by
    intro v τ hv
    cases v with
    | zero => exact ⟨rfl, by cases hv; rfl⟩
    | succ v => cases hv
  refine ⟨fun v τ hv => ?_, fun v w τ hv hw => ?_⟩
  · rw [(root v τ hv).2]
    exact Int.lt_succ now
  · rw [(root v τ hv).1, (root w τ hw).1]

/-! ## Times read one after the other -/

theorem Aged.refl (t : Tree) (since : Time) : t.Aged since (fun _ => False) t :=
  ⟨le_rfl, fun _ _ _ hv => .inl ⟨hv, id⟩, fun _ _ hle hv => absurd (modified?_lt hv) (Nat.not_lt.2 hle)⟩

theorem Aged.congr {other : NodeId → Prop} (h : t.Aged since touched u) (hs : ∀ v, v < t.nextId → (touched v ↔ other v)) :
    t.Aged since other u :=
  ⟨h.next, fun v τ hlt hv => by rw [← hs v hlt]; exact h.time v τ hlt hv, h.fresh⟩

theorem Aged.trans {w : Tree} {later : Time} {other : NodeId → Prop} (h : t.Aged since touched u)
    (hle : since ≤ later) (hw : u.Aged later other w) : t.Aged since (fun v => touched v ∨ other v) w := by
  refine ⟨h.next.trans hw.next, fun v τ hlt hv => ?_, fun v τ hnew hv => ?_⟩
  · rcases hw.time v τ (hlt.trans_le h.next) hv with ⟨hmid, hno⟩ | ⟨hsince, hyes⟩
    · rcases h.time v τ hlt hmid with ⟨hold, hnot⟩ | ⟨hsince, hyes⟩
      · exact .inl ⟨hold, not_or.2 ⟨hnot, hno⟩⟩
      · exact .inr ⟨hsince, .inl hyes⟩
    · exact .inr ⟨hle.trans hsince, .inr hyes⟩
  · by_cases hmid : v < u.nextId
    · rcases hw.time v τ hmid hv with ⟨hmid, -⟩ | ⟨hsince, -⟩
      · exact h.fresh v τ hnew hmid
      · exact hle.trans hsince
    · exact hle.trans (hw.fresh v τ (Nat.not_lt.1 hmid) hv)

/-- **Two times, read one after the other, differ exactly if they are of two vertices or of one that was touched.** -/
theorem Aged.differs (h : t.Aged since touched u) (hs : t.Stamped since) {v w : NodeId} {τ σ : Time}
    (hv : t.modified? v = some τ) (hw : u.modified? w = some σ) : τ ≠ σ ↔ v ≠ w ∨ touched v := by
  have before : τ < since := hs.past v τ hv
  constructor
  · intro hne
    by_contra hcon
    obtain ⟨hsame, hnot⟩ := not_or.1 hcon
    obtain rfl := not_not.1 hsame
    rcases h.time v σ (modified?_lt hv) hw with ⟨hold, -⟩ | ⟨-, hyes⟩
    · exact hne (Option.some.inj (hv.symm.trans hold))
    · exact hnot hyes
  · rintro hor rfl
    by_cases hlt : w < t.nextId
    · rcases h.time w τ hlt hw with ⟨hold, hnot⟩ | ⟨hsince, -⟩
      · have same := hs.apart v w τ hv hold
        rcases hor with hne | hyes
        · exact hne same
        · exact hnot (same ▸ hyes)
      · exact absurd before (not_lt.2 hsince)
    · exact absurd before (not_lt.2 (h.fresh w τ (Nat.not_lt.1 hlt) hw))

/-! ## One time written -/

/-- one vertex has the present time, and no other has another time than before -/
structure Writes (t : Tree) (now : Time) (v : NodeId) (u : Tree) : Prop where
  next : t.nextId ≤ u.nextId
  time : ∀ k τ, u.modified? k = some τ → (k = v ∧ τ = now) ∨ (k ≠ v ∧ t.modified? k = some τ)

theorem Writes.stamped {v : NodeId} (hu : t.Writes now v u) (h : t.Stamped now) : u.Stamped (now + 1) := by
  refine ⟨fun k τ hk => ?_, fun j k τ hj hk => ?_⟩
  · rcases hu.time k τ hk with ⟨-, rfl⟩ | ⟨-, hold⟩
    · exact Int.lt_succ τ
    · exact (h.past k τ hold).trans (Int.lt_succ now)
  · rcases hu.time j τ hj with ⟨rfl, rfl⟩ | ⟨-, hold⟩
    · rcases hu.time k τ hk with ⟨rfl, -⟩ | ⟨-, hother⟩
      · rfl
      · exact absurd (h.past k τ hother) (lt_irrefl τ)
    · rcases hu.time k τ hk with ⟨rfl, rfl⟩ | ⟨-, hother⟩
      · exact absurd (h.past j τ hold) (lt_irrefl τ)
      · exact h.apart j k τ hold hother

theorem Writes.aged {v : NodeId} (hu : t.Writes now v u) : t.Aged now (· = v) u := by
  refine ⟨hu.next, fun k τ _ hk => ?_, fun k τ hnew hk => ?_⟩
  · rcases hu.time k τ hk with ⟨rfl, rfl⟩ | ⟨hne, hold⟩
    · exact .inr ⟨le_rfl, rfl⟩
    · exact .inl ⟨hold, hne⟩
  · rcases hu.time k τ hk with ⟨-, rfl⟩ | ⟨-, hold⟩
    · exact le_rfl
    · exact absurd (modified?_lt hold) (Nat.not_lt.2 hnew)

/-! ## The times after a change -/

theorem modified?_touch (t : Tree) (k : NodeId) (f : Node → Node) (hf : ∀ n, (f n).times.modified = now) :
    ((t.node? k).map f).map (fun n => n.times.modified) = (t.modified? k).map fun _ => now := by
  rw [modified?, Option.map_map, Option.map_map]
  congr 1
  funext n
  exact hf n

theorem writes_withChildren (t : Tree) (p : NodeId) (now : Time) (f : List NodeId → List NodeId) :
    t.Writes now p (t.withChildren p now f) := by
  refine ⟨by rw [withChildren, nextId_update], fun k τ hk => ?_⟩
  rw [modified?, node?_withChildren, Tree.touched] at hk
  split at hk
  · next hp =>
    rw [modified?_touch t k _ (fun n => by cases n <;> rfl)] at hk
    obtain ⟨_, -, rfl⟩ := Option.map_eq_some_iff.1 hk
    exact .inl ⟨hp.symm, rfl⟩
  · next hp => exact .inr ⟨fun heq => hp heq.symm, hk⟩

theorem writes_push (t : Tree) {x : Vertex} (hx : x.node.times.modified = now) :
    t.Writes now t.nextId (t.push x) := by
  refine ⟨by rw [nextId_push]; exact Nat.le_succ _, fun k τ hk => ?_⟩
  rw [modified?, node?_push] at hk
  split at hk
  · next heq =>
    cases hk
    exact .inl ⟨heq, hx⟩
  · next hne => exact .inr ⟨hne, hk⟩

/-- a directory is made: it gets the present time, and its parent the next -/
theorem writes_append {p id : NodeId} {name : String}
    (hu : t.append p (.directory (.new name now)) (now + 1) = some (id, u)) :
    ∃ mid, t.Writes now t.nextId mid ∧ mid.Writes (now + 1) p u := by
  obtain ⟨-, -, -, rfl⟩ := append_eq_some hu
  exact ⟨_, t.writes_push rfl, writes_withChildren _ _ _ _⟩

theorem stamped_append {p id : NodeId} {name : String}
    (hu : t.append p (.directory (.new name now)) (now + 1) = some (id, u)) (h : t.Stamped now) :
    u.Stamped (now + 2) := by
  obtain ⟨mid, made, written⟩ := writes_append hu
  exact (written.stamped (made.stamped h)).mono (Int.add_assoc now 1 1).le

theorem aged_append {p id : NodeId} {name : String}
    (hu : t.append p (.directory (.new name now)) (now + 1) = some (id, u)) : t.Aged now (· = p) u := by
  obtain ⟨mid, made, written⟩ := writes_append hu
  refine (made.aged.trans (Int.lt_succ now).le written.aged).congr fun v hv => ?_
  exact or_iff_right hv.ne

/-- a directory is taken out: its parent gets the present time -/
theorem writes_delete {id p : NodeId} (hu : t.deleteIfEmpty id now = some u) (hp : t.parentOf id = some p) :
    t.Writes now p u := by
  obtain ⟨d, q, -, hget, rfl⟩ := deleteIfEmpty_eq_some hu
  obtain rfl := Option.some.inj (hp.symm.trans (parentOf_of_get? hget))
  have written := writes_withChildren (t.drop id) p now (·.filter (· ≠ id))
  refine ⟨by rw [withChildren, nextId_update, nextId_drop], fun k τ hk => ?_⟩
  rcases written.time k τ hk with hnow | ⟨hne, hold⟩
  · exact .inl hnow
  · rw [modified?, node?_drop] at hold
    split at hold
    · cases hold
    · exact .inr ⟨hne, hold⟩

/-- a directory gets another name: it gets the present time -/
theorem writes_rename {id : NodeId} {name : String} (hu : t.rename id name now = some u) : t.Writes now id u := by
  refine ⟨(nextId_rename hu).ge, fun k τ hk => ?_⟩
  rw [modified?, node?_rename hu] at hk
  split at hk
  · next heq =>
    rw [modified?_touch t k _ (fun n => by cases n <;> rfl)] at hk
    obtain ⟨_, -, rfl⟩ := Option.map_eq_some_iff.1 hk
    exact .inl ⟨heq.symm, rfl⟩
  · next hne => exact .inr ⟨fun heq => hne heq.symm, hk⟩

/-- a mount is made: no vertex that was there gets another time -/
theorem writes_replace {e id : NodeId} {m : MountNode} (hm : m.shadowed = e)
    (hnow : m.times.modified = now) (hu : t.replaceWith e (.mount m) = some (id, u)) : t.Writes now t.nextId u := by
  refine ⟨by rw [nextId_replace hu]; exact Nat.le_succ _, fun k τ hk => ?_⟩
  rw [modified?, node?_replace hm hu] at hk
  split at hk
  · next heq =>
    cases hk
    exact .inl ⟨heq, hnow⟩
  · next hne => exact .inr ⟨hne, hk⟩

theorem aged_replace {e id : NodeId} {m : MountNode} (hm : m.shadowed = e)
    (hnow : m.times.modified = now) (hu : t.replaceWith e (.mount m) = some (id, u)) :
    t.Aged now (fun _ => False) u :=
  (writes_replace hm hnow hu).aged.congr fun _ hv => iff_false_intro hv.ne

/-- a mount is taken away: no vertex that stays gets another time -/
theorem modified?_unmount {id : NodeId} (hu : t.unmount id = some u) {k : NodeId} {τ : Time}
    (hk : u.modified? k = some τ) : t.modified? k = some τ := by
  rw [modified?, node?_unmount hu] at hk
  split at hk
  · cases hk
  · exact hk

theorem aged_unmount {id : NodeId} (hu : t.unmount id = some u) (now : Time) :
    t.Aged now (fun _ => False) u := by
  refine ⟨(nextId_unmount hu).ge, fun v τ _ hv => .inl ⟨modified?_unmount hu hv, not_false⟩, fun v τ hnew hv => ?_⟩
  exact absurd (modified?_lt (modified?_unmount hu hv)) (Nat.not_lt.2 hnew)

end Tree

end MountSpace

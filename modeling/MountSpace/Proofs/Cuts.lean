/-
Lists that have grown at the end, cut before one of their members. What holds of every cut of a list is carried to the
list with one member more by looking at the two places where that one can be cut.
-/
import Mathlib.Data.List.Basic

namespace MountSpace

/-- the longer list is cut before its last member, or where the shorter one is cut -/
theorem concat_eq_cut {α : Type} {front before later : List α} {last c : α} : front ++ [last] = before ++ c :: later ↔
    (front = before ∧ last = c ∧ later = []) ∨ ∃ since, later = since ++ [last] ∧ front = before ++ c :: since := by
  constructor
  · intro h
    rcases List.append_eq_append_iff.1 h with ⟨more, rfl, hmore⟩ | ⟨more, rfl, hmore⟩
    · cases more with
      | nil =>
        cases hmore
        exact .inl ⟨by simp, rfl, rfl⟩
      | cons first rest => simp at hmore
    · cases more with
      | nil =>
        cases hmore
        exact .inl ⟨by simp, rfl, rfl⟩
      | cons first rest =>
        obtain ⟨rfl, hlater⟩ := List.cons.inj hmore
        exact .inr ⟨rest, hlater, rfl⟩
  · rintro (⟨rfl, rfl, rfl⟩ | ⟨since, rfl, rfl⟩)
    · rfl
    · simp

end MountSpace

/-
Lists cut at a separator and put together again. `split` and `join` are inverse to each other: `join_split` for every
list, `split_join` for pieces that hold no separator.
-/

namespace MountSpace.Text

variable {α : Type} [DecidableEq α]

/-- the pieces between the separators; there is always one more piece than there are separators -/
def split (sep : α) : List α → List (List α)
  | [] => [[]]
  | c :: rest =>
    if c = sep then [] :: split sep rest
    else match split sep rest with
      | [] => [[c]]
      | piece :: pieces => (c :: piece) :: pieces

omit [DecidableEq α] in
/-- the pieces with one separator between neighbours -/
def join (sep : α) : List (List α) → List α
  | [] => []
  | [piece] => piece
  | piece :: next :: pieces => piece ++ sep :: join sep (next :: pieces)

theorem split_ne_nil (sep : α) (l : List α) : split sep l ≠ [] := by
  cases l with
  | nil => simp [split]
  | cons c rest =>
    unfold split
    split
    · simp
    · split <;> simp

theorem join_split (sep : α) (l : List α) : join sep (split sep l) = l := by
  induction l with
  | nil => rfl
  | cons c rest ih =>
    unfold split
    split
    · next h =>
      cases hs : split sep rest with
      | nil => exact absurd hs (split_ne_nil sep rest)
      | cons piece pieces => rw [join, List.nil_append, ← hs, ih, h]
    · cases hs : split sep rest with
      | nil => exact absurd hs (split_ne_nil sep rest)
      | cons piece pieces =>
        rw [hs] at ih
        cases pieces with
        | nil => simpa [join] using ih
        | cons next more => simpa [join] using ih

theorem split_piece (sep : α) {piece : List α} (h : sep ∉ piece) : split sep piece = [piece] := by
  induction piece with
  | nil => rfl
  | cons c rest ih =>
    simp only [List.mem_cons, not_or] at h
    rw [split, if_neg (fun e => h.1 e.symm), ih h.2]

theorem split_piece_append (sep : α) {piece : List α} (h : sep ∉ piece) (rest : List α) :
    split sep (piece ++ sep :: rest) = piece :: split sep rest := by
  induction piece with
  | nil => simp [split]
  | cons c more ih =>
    simp only [List.mem_cons, not_or] at h
    rw [List.cons_append, split, if_neg (fun e => h.1 e.symm), ih h.2]

theorem split_join (sep : α) {pieces : List (List α)} (hne : pieces ≠ []) (h : ∀ p ∈ pieces, sep ∉ p) :
    split sep (join sep pieces) = pieces := by
  induction pieces with
  | nil => exact absurd rfl hne
  | cons piece rest ih =>
    cases rest with
    | nil => exact split_piece sep (h piece (by simp))
    | cons next more =>
      rw [join, split_piece_append sep (h piece (by simp)), ih (by simp) (fun p hp => h p (by simp [hp]))]

end MountSpace.Text

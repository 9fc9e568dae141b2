/-
What the host is asked for on a walk. A stepwise walk asks for each name by the physical path up to it, and is refused
where that path is too long. Pieces that say nothing are not asked for (`walk_cons_blank`), and to leave them out asks for
no more (`asking_without`). Where a stepwise walk comes to an end, so does the walk that asks for nothing on the way
(`walk_unasked`).
-/
import MountSpace.Proofs.Path.Contained
import MountSpace.Filesystem.HostView

namespace MountSpace

/-- more pieces make a text no shorter -/
theorem Text.length_join_le {α : Type} (sep : α) (pieces more : List (List α)) :
    (join sep pieces).length ≤ (join sep (pieces ++ more)).length := by
  induction pieces with
  | nil => exact Nat.zero_le _
  | cons piece rest ih =>
    cases rest with
    | nil =>
      cases more with
      | nil => exact Nat.le_refl _
      | cons next more => simp [join]
    | cons next rest =>
      simp only [List.cons_append, join, List.length_append, List.length_cons] at ih ⊢
      omega

namespace FsPath

theorem length_ofNames_le (names more : List (List UInt8)) :
    (ofNames names).bytes.length ≤ (ofNames (names ++ more)).bytes.length :=
  Nat.succ_le_succ (Text.length_join_le slash names more)

variable {piece : List UInt8}

theorem component?_of_blank (h : piece = [] ∨ piece = [dot]) : component? piece = none := if_pos h

theorem blank_of_component? (h : component? piece = none) : piece = [] ∨ piece = [dot] := by
  by_contra hblank
  rw [component?, if_neg hblank] at h
  split at h <;> cases h

end FsPath

namespace Host

variable {host : Host} {here : HostKey} {piece : List UInt8} {rest more before blanks later : List (List UInt8)}

/-! ## The next name -/

theorem needsDirectory_plain (h : ∀ name ∈ rest, PlainBytes name) : needsDirectory rest = false := by
  cases rest with
  | nil => rfl
  | cons name rest =>
    simp [needsDirectory, (h name List.mem_cons_self).notBlank]

theorem needsDirectory_without (hblanks : ∀ blank ∈ blanks, FsPath.component? blank = none)
    (h : needsDirectory (before ++ later) = true) : needsDirectory (before ++ (blanks ++ later)) = true := by
  have hnone : blanks.findSome? FsPath.component? = none := List.findSome?_eq_none_iff.2 hblanks
  simp only [needsDirectory, Bool.and_eq_true, Bool.not_eq_true', List.isEmpty_eq_false_iff, List.findSome?_append,
    hnone, Option.none_or] at h ⊢
  refine ⟨?_, h.2⟩
  simp only [ne_eq, List.append_eq_nil_iff, not_and] at h ⊢
  tauto

theorem asking_blank (h : FsPath.component? piece = none) : host.asking here (piece :: rest) = host.asking here rest := by
  simp only [asking, h]

/-- what follows a name counts for it only by whether it needs a directory -/
theorem asking_mono (hpiece : FsPath.component? piece ≠ none)
    (h : needsDirectory rest = true → needsDirectory more = true) :
    host.asking here (piece :: rest) ≤ host.asking here (piece :: more) := by
  simp only [asking]
  split
  · contradiction
  · split
    · exact Nat.le_refl _
    · split
      · next hrest => exact Nat.le_of_eq (if_pos (h hrest)).symm
      · split <;> omega
  · exact Nat.le_refl _

/-- a plain name with nothing but plain names behind it is asked for by its path -/
theorem asking_plain (hpiece : PlainBytes piece) (hrest : ∀ name ∈ rest, PlainBytes name) :
    host.asking here (piece :: rest) = (FsPath.ofNames (here ++ [piece])).bytes.length := by
  simp only [asking, hpiece.notBlank, needsDirectory_plain hrest, Bool.false_eq_true, if_false]
  split <;> rfl

/-- without blank pieces no more is asked -/
theorem asking_without (before : List (List UInt8)) (hblanks : ∀ blank ∈ blanks, FsPath.component? blank = none) :
    host.asking here (before ++ later) ≤ host.asking here (before ++ (blanks ++ later)) := by
  induction before with
  | nil =>
    induction blanks with
    | nil => exact Nat.le_refl _
    | cons blank blanks ih =>
      rw [List.forall_mem_cons] at hblanks
      have hrest : host.asking here later ≤ host.asking here (blanks ++ later) := ih hblanks.2
      have hskip : host.asking here (blank :: (blanks ++ later)) = host.asking here (blanks ++ later) :=
        asking_blank hblanks.1
      exact hskip ▸ hrest
  | cons piece before ih =>
    simp only [List.cons_append]
    by_cases hpiece : FsPath.component? piece = none
    · rw [asking_blank hpiece, asking_blank hpiece]
      exact ih
    · exact asking_mono hpiece (needsDirectory_without hblanks)

/-! ## Walks -/

section Walk

variable {stepwise : Bool} {links : Nat} {key : HostKey} {pieces : List (List UInt8)}

/-- blank pieces lead nowhere else, and only from directories -/
theorem step_blank (host : Host) (here : HostKey) (hpiece : FsPath.component? piece = none) :
    host.step here piece = .ok (.place here) ∨ ∀ piece, host.step here piece = .error .notDirectory := by
  have hblank := FsPath.blank_of_component? hpiece
  unfold step
  cases hget : host.get? here with
  | none => exact .inr fun _ => rfl
  | some entry =>
    cases entry with
    | directory mtime => exact .inl (if_pos hblank)
    | file data mtime => exact .inr fun _ => rfl
    | link target mtime => exact .inr fun _ => rfl

/-- what the first step of a walk that comes to an end was -/
theorem walk_cons_ok (h : host.walk stepwise links here (piece :: rest) = .ok key) :
    ¬ (stepwise = true ∧ pathLimit ≤ host.asking here (piece :: rest)) ∧
    ((∃ there, host.step here piece = .ok (.place there) ∧ host.walk stepwise links there rest = .ok key) ∨
    ∃ target left, host.step here piece = .ok (.link target) ∧ links = left + 1 ∧
      host.walk stepwise left (linkBase here target) (Text.split FsPath.slash target.bytes ++ rest) = .ok key) := by
  rw [walk] at h
  split at h
  · cases h
  · next hnear =>
    refine ⟨hnear, ?_⟩
    split at h
    · cases h
    · next there hstep => exact .inl ⟨there, hstep, h⟩
    · next target hstep =>
      split at h
      · cases h
      · next left => exact .inr ⟨target, left, hstep, rfl, h⟩

/-- a blank piece with something behind it may be left out -/
theorem walk_cons_blank (hpiece : FsPath.component? piece = none) (hrest : rest ≠ []) :
    host.walk stepwise links here (piece :: rest) = host.walk stepwise links here rest := by
  obtain ⟨next, rest, rfl⟩ := List.exists_cons_of_ne_nil hrest
  rw [walk, asking_blank hpiece]
  split
  · next hfar => rw [walk, if_pos hfar]
  · next hnear =>
    rcases step_blank host here hpiece with hstep | hrefused
    · rw [hstep]
    · rw [walk, if_neg hnear, hrefused, hrefused]

/-- a stepwise walk that comes to an end comes to the same end without asking on the way -/
theorem walk_unasked (h : host.walk stepwise links here pieces = .ok key) :
    host.walk false links here pieces = .ok key := by
  have hnear : ∀ here pieces, ¬ (false = true ∧ pathLimit ≤ host.asking here pieces) := by simp
  fun_induction host.walk stepwise links here pieces with
  | case1 links here => rw [walk, h]
  | case2 => cases h
  | case3 => cases h
  | case4 links here piece rest _ there hstep ih =>
    rw [walk, if_neg (hnear _ _), hstep]
    exact ih h
  | case5 => cases h
  | case6 here piece rest _ target hstep left ih =>
    rw [walk, if_neg (hnear _ _), hstep]
    exact ih h

theorem locate_of_canonical {path : FsPath} (h : host.canonical path = .ok key) (hnear : path.bytes.length < pathLimit) :
    host.locate path = .ok key := by
  have hfollow : host.follow true path = .ok key := h
  unfold follow at hfollow
  unfold locate follow
  split at hfollow
  · cases hfollow
  next hzero =>
    rw [if_neg hzero, if_neg (Nat.not_le.2 hnear), if_neg hzero]
    split at hfollow
    · next hrooted =>
      rw [if_pos hrooted, walk_unasked hfollow]
    · next hrooted =>
      rw [if_neg hrooted]
      split at hfollow
      · split_ifs at hfollow ⊢
        exact walk_unasked hfollow
      · cases hfollow

/-- blank pieces at the beginning may be left out of a walk that comes to an end -/
theorem walk_skip (hblanks : ∀ blank ∈ blanks, FsPath.component? blank = none)
    (h : host.walk stepwise links here (blanks ++ later) = .ok key) : host.walk stepwise links here later = .ok key := by
  induction blanks with
  | nil => exact h
  | cons blank blanks ih =>
    rw [List.forall_mem_cons] at hblanks
    obtain ⟨-, hnext⟩ := walk_cons_ok h
    rcases step_blank host here hblanks.1 with hstep | hrefused
    · rw [hstep] at hnext
      exact ih hblanks.2 (by simpa using hnext)
    · rw [hrefused] at hnext
      simp at hnext

/-- **Blank pieces may be left out** of a walk that comes to an end. -/
theorem walk_without {links : Nat} {here : HostKey} {before : List (List UInt8)}
    (hblanks : ∀ blank ∈ blanks, FsPath.component? blank = none)
    (h : host.walk stepwise links here (before ++ (blanks ++ later)) = .ok key) :
    host.walk stepwise links here (before ++ later) = .ok key := by
  match before with
  | [] => exact walk_skip hblanks h
  | piece :: before =>
    have hless : host.asking here (piece :: (before ++ later)) ≤
        host.asking here (piece :: (before ++ (blanks ++ later))) := asking_without (piece :: before) hblanks
    rw [List.cons_append] at h ⊢
    obtain ⟨hnear, ⟨there, hstep, hrest⟩ | ⟨target, left, hstep, hlinks, hrest⟩⟩ := walk_cons_ok h
    all_goals rw [walk, if_neg fun hfar => hnear ⟨hfar.1, Nat.le_trans hfar.2 hless⟩, hstep]
    · exact walk_without hblanks hrest
    · rw [← List.append_assoc] at hrest
      have hfollowed := walk_without hblanks hrest
      rw [List.append_assoc] at hfollowed
      rw [hlinks]
      exact hfollowed
termination_by (links, before.length)

end Walk

end Host

end MountSpace

/-
What a refused call of a store leaves behind: nothing. The directories above a path are made before it is known whether
the call succeeds, so a call that fails late could leave some of them. It cannot: nothing lies below a path that is
missing (`Tidy.bare_of_missing`), so once a directory has been made the way on is free (`ensureAll_free`), and a path that
is taken has all its directories already (`ensureParents_taken`).

Main result: `filled_sound`.
-/
import MountSpace.Proofs.Memory.Store
import Mathlib.Data.List.Induction

namespace MountSpace

namespace MemoryStore

/-- the answer to a call, and the store after it -/
def perform (store : MemoryStore) : Call → Except FsError Unit × MemoryStore
  | .insertFile now path data => store.insertFile now path data
  | .insertDirectory now path => store.insertDirectory now path
  | .remove path => store.remove path
  | .setMtime path time => store.setMtime path time

theorem call_eq_perform (store : MemoryStore) (c : Call) : store.call c = (store.perform c).2 := by
  cases c <;> rfl

/-- an outcome that is not both an error and a change -/
def Intact (store : MemoryStore) (outcome : Except FsError Unit × MemoryStore) : Prop :=
  ∀ e, outcome.1 = .error e → outcome.2 = store

theorem Intact.error (store : MemoryStore) (e : FsError) : store.Intact (.error e, store) := fun _ _ => rfl

theorem Intact.ok (store last : MemoryStore) : store.Intact (.ok (), last) := nofun

section Ways

variable {store : MemoryStore}

/-- what there is lies in directories all the way up -/
theorem Tidy.directory_above (h : store.Tidy) {front rest : MemoryKey} (hne : rest ≠ [])
    (hsome : (store.get? (front ++ rest)).isSome) : store.HasDirectory front := by
  induction rest using List.reverseRecOn with
  | nil => exact absurd rfl hne
  | append_singleton before name ih =>
    have hparent := h.inside (front ++ (before ++ [name])) (by simp) hsome
    rw [← List.append_assoc, List.dropLast_concat] at hparent
    by_cases hb : before = []
    · rw [hb, List.append_nil] at hparent
      exact hparent
    · obtain ⟨a, ha⟩ := hparent
      exact ih hb (Option.isSome_of_eq_some ha)

/-- nothing lies below a path that is missing -/
theorem Tidy.bare_of_missing (h : store.Tidy) {key other : MemoryKey} (hnone : store.get? key = none)
    (hbelow : key <+: other) : store.get? other = none := by
  obtain ⟨rest, rfl⟩ := hbelow
  by_cases hrest : rest = []
  · rw [hrest, List.append_nil]
    exact hnone
  · rw [← Option.not_isSome_iff_eq_none]
    intro hsome
    obtain ⟨a, ha⟩ := h.directory_above hrest hsome
    rw [hnone] at ha
    cases ha

/-- where nothing lies below a path, all directories on a way from it can be made -/
theorem ensureAll_free (now : Time) {front : MemoryKey} {names : List (List UInt8)}
    (hfree : ∀ other, other ≠ front → front <+: other → store.get? other = none) :
    (ensureAll now (climb front names) store).1 = .ok () := by
  induction names generalizing front store with
  | nil => rfl
  | cons name rest ih =>
    have hmissing : store.get? (front ++ [name]) = none := hfree _ (by simp) (List.prefix_append _ _)
    rw [climb, ensureAll, hmissing]
    refine ih fun other hne hbelow => ?_
    have hlonger : other ≠ front := by
      rintro rfl
      have hle := hbelow.length_le
      rw [List.length_append, List.length_singleton] at hle
      omega
    rw [get?_insert, if_neg (by simpa using hne)]
    exact hfree other hlonger ((List.prefix_append _ _).trans hbelow)

/-- making directories on a way changes nothing if a file is met -/
theorem ensureAll_refused (h : store.Tidy) {now : Time} {front : MemoryKey} {names : List (List UInt8)} {e : FsError}
    (he : (ensureAll now (climb front names) store).1 = .error e) :
    (ensureAll now (climb front names) store).2 = store := by
  induction names generalizing front with
  | nil => cases he
  | cons name rest ih =>
    rw [climb, ensureAll] at he ⊢
    cases hget : store.get? (front ++ [name]) with
    | none =>
      -- the rest of the way is free, so no file is met on it
      have hfree : ∀ other, other ≠ front ++ [name] → front ++ [name] <+: other →
          (store.insert (front ++ [name]) (.directory (.directory now))).get? other = none := by
        intro other hne hbelow
        rw [get?_insert, if_neg (by simpa using hne)]
        exact h.bare_of_missing hget hbelow
      rw [hget] at he
      cases he.symm.trans (ensureAll_free now hfree)
    | some entry =>
      cases entry with
      | file data a => rfl
      | directory a =>
        rw [hget] at he
        exact ih he

/-- a way of directories is left alone -/
theorem ensureAll_present (h : store.Tidy) (now : Time) {front : MemoryKey} {names : List (List UInt8)}
    (hend : store.HasDirectory (front ++ names)) : ensureAll now (climb front names) store = (.ok (), store) := by
  induction names generalizing front with
  | nil => rfl
  | cons name rest ih =>
    have hcut : front ++ name :: rest = (front ++ [name]) ++ rest := by simp
    rw [hcut] at hend
    have hfirst : store.HasDirectory (front ++ [name]) := by
      by_cases hrest : rest = []
      · rw [hrest, List.append_nil] at hend
        exact hend
      · obtain ⟨a, ha⟩ := hend
        exact h.directory_above hrest (Option.isSome_of_eq_some ha)
    obtain ⟨a, ha⟩ := hfirst
    rw [climb, ensureAll, ha]
    exact ih hend

/-- other entries stay as they are -/
theorem get?_ensureAll (now : Time) {key : MemoryKey} {keys : List MemoryKey} (hkey : key ∉ keys) :
    (ensureAll now keys store).2.get? key = store.get? key := by
  induction keys generalizing store with
  | nil => rfl
  | cons first rest ih =>
    rw [List.mem_cons, not_or] at hkey
    rw [ensureAll]
    cases store.get? first with
    | none =>
      refine (ih hkey.2).trans ?_
      rw [get?_insert, if_neg (by simpa using hkey.1)]
    | some entry =>
      cases entry with
      | file data a => rfl
      | directory a => exact ih hkey.2

theorem notMem_ancestors (key : MemoryKey) : key ∉ ancestors key := by
  intro hm
  obtain ⟨n, hn, htake⟩ := List.mem_map.1 hm
  have hlength := congrArg List.length htake
  rw [List.mem_range] at hn
  rw [List.length_take] at hlength
  omega

theorem get?_ensureParents (now : Time) (key : MemoryKey) :
    (ensureParents now key store).2.get? key = store.get? key :=
  get?_ensureAll now (notMem_ancestors key)

theorem ensureParents_refused (h : store.Tidy) {now : Time} {key : MemoryKey} {e : FsError}
    (he : (ensureParents now key store).1 = .error e) : (ensureParents now key store).2 = store := by
  rw [ensureParents, ancestors_eq_climb] at he ⊢
  exact ensureAll_refused h he

/-- a path that is taken has its directories -/
theorem ensureParents_taken (h : store.Tidy) (now : Time) {key : MemoryKey} (hkey : key ≠ [])
    (hsome : (store.get? key).isSome) : ensureParents now key store = (.ok (), store) := by
  rw [ensureParents, ancestors_eq_climb]
  exact ensureAll_present h now (h.inside key hkey hsome)

end Ways

/-! ## Calls -/

section Calls

variable {store : MemoryStore} (h : store.Tidy)
include h

/-- if what is at the path refuses a call after its directories have been seen to, none of them was missing -/
theorem intact_of_taken {now : Time} {key : MemoryKey} {next : MemoryStore} {entry : MemoryEntry} (e : FsError)
    (hmade : ensureParents now key store = (.ok (), next)) (hentry : next.get? key = some entry) :
    store.Intact (.error e, next) := by
  intro _ _
  have hthere : store.get? key = some entry := by
    rw [← get?_ensureParents now key, hmade]
    exact hentry
  by_cases hkey : key = []
  · rw [hkey] at hmade
    exact (Prod.ext_iff.1 hmade).2.symm
  · rw [ensureParents_taken h now hkey (Option.isSome_of_eq_some hthere)] at hmade
    exact (Prod.ext_iff.1 hmade).2.symm

theorem insertFile_intact (now : Time) (path : FsPath) (data : ByteArray) :
    store.Intact (store.insertFile now path data) := by
  rw [insertFile]
  by_cases hroot : normalize path = []
  · simp only [if_pos hroot]
    exact .error store _
  · simp only [if_neg hroot]
    cases hmade : ensureParents now (normalize path) store with
    | mk answer next =>
      cases answer with
      | error e =>
        intro _ _
        have hsame := ensureParents_refused h (congrArg Prod.fst hmade)
        rw [hmade] at hsame
        exact hsame
      | ok _ =>
        simp only
        cases hget : next.get? (normalize path) with
        | none => exact .ok store _
        | some entry =>
          cases entry with
          | file old a => exact .ok store _
          | directory a => exact intact_of_taken h _ hmade hget

theorem insertDirectory_intact (now : Time) (path : FsPath) : store.Intact (store.insertDirectory now path) := by
  rw [insertDirectory]
  cases hmade : ensureParents now (normalize path) store with
  | mk answer next =>
    cases answer with
    | error e =>
      intro _ _
      have hsame := ensureParents_refused h (congrArg Prod.fst hmade)
      rw [hmade] at hsame
      exact hsame
    | ok _ =>
      simp only
      cases hget : next.get? (normalize path) with
      | none => exact .ok store _
      | some entry =>
        cases entry with
        | file old a => exact intact_of_taken h _ hmade hget
        | directory a => exact .ok store _

omit h in
theorem remove_intact (path : FsPath) : store.Intact (store.remove path) := by
  rw [remove]
  by_cases hroot : normalize path = []
  · simp only [if_pos hroot]
    exact .error store _
  · simp only [if_neg hroot]
    cases store.get? (normalize path) with
    | none => exact .error store _
    | some entry => exact .ok store _

omit h in
theorem setMtime_intact (path : FsPath) (time : Time) : store.Intact (store.setMtime path time) := by
  rw [setMtime]
  cases store.get? (normalize path) with
  | none => exact .error store _
  | some entry => exact .ok store _

theorem perform_intact (c : Call) : store.Intact (store.perform c) := by
  cases c with
  | insertFile now path data => exact insertFile_intact h now path data
  | insertDirectory now path => exact insertDirectory_intact h now path
  | remove path => exact remove_intact path
  | setMtime path time => exact setMtime_intact path time

end Calls

/-- **A store stays tidy, and what it refuses leaves no trace.** Whatever calls have been made of a new store, with any
paths and failing ones among them, its root is a directory, its keys are plain names, every other entry lies in a
directory and its attributes tell its kind and size; and a call that answers an error leaves every entry, the directories
above its path included, as it was. -/
theorem filled_sound (now : Time) (calls : List Call) : (filled now calls).Tidy ∧
    ∀ c, (filled now calls).Intact ((filled now calls).perform c) :=
  ⟨filled_tidy now calls, fun c => perform_intact (filled_tidy now calls) c⟩

/-- a file in the way is met before anything is made -/
example : (((empty 0).perform (.insertFile 1 (.ofString "/a") .empty)).2.perform
    (.insertDirectory 2 (.ofString "/b/../a/./c/d"))).1 = .error (.notADirectory "/a") := by cbv

end MemoryStore

end MountSpace

/-
Physical paths of the host. However links and double dots have led, a walk ends at an object that is no link, under
plain names with a directory above each (`walk_physical`). The path of those names leads back to the same place, unless
it is too long to be walked stepwise (`walk_of_physical`), so the host, asked for a path that has been made physical,
answers for that very place (`locate_ofNames`).
-/
import MountSpace.Proofs.Host.Asking
import Mathlib.Data.List.Basic

namespace MountSpace

namespace Host

/-- plain names short enough for the host, with a directory above each -/
structure Physical (host : Host) (key : HostKey) : Prop where
  above : ∀ front name rest, key = front ++ name :: rest → ∃ mtime, host.get? front = some (.directory mtime)
  plain : ∀ name ∈ key, PlainBytes name
  short : ∀ name ∈ key, name.length ≤ nameLimit

/-- something stands at the path, and it is no link; the root is a directory -/
def Stands (host : Host) (key : HostKey) : Prop :=
  ∃ entry, host.get? key = some entry ∧ entry.kind ≠ .symlink ∧ (key = [] → entry.kind = .directory)

/-- the working directory, if there is one, is a physical path -/
def CwdPhysical (host : Host) : Prop := ∀ here, host.cwd = some here → host.Physical here

section Physical

variable {host : Host} {key here : HostKey}

theorem physical_nil (host : Host) : host.Physical [] where
  above := by simp
  plain := by simp
  short := by simp

theorem Physical.of_append {rest : HostKey} (h : host.Physical (key ++ rest)) : host.Physical key where
  above := by
    intro front name more hcut
    exact h.above front name (more ++ rest) (by simp [hcut])
  plain name hn := h.plain name (List.mem_append_left _ hn)
  short name hn := h.short name (List.mem_append_left _ hn)

theorem Physical.dropLast (h : host.Physical key) : host.Physical key.dropLast := by
  cases hlast : key.getLast? with
  | none =>
    rw [List.getLast?_eq_none_iff.1 hlast]
    exact physical_nil host
  | some last =>
    obtain ⟨front, rfl⟩ := List.getLast?_eq_some_iff.1 hlast
    rw [List.dropLast_concat]
    exact h.of_append

theorem Physical.snoc (h : host.Physical key) {mtime : Time} (hdir : host.get? key = some (.directory mtime))
    {name : List UInt8} (hplain : PlainBytes name) (hshort : name.length ≤ nameLimit) :
    host.Physical (key ++ [name]) where
  above := by
    intro front nm rest hcut
    rcases rest.eq_nil_or_concat with rfl | ⟨more, last, rfl⟩
    · obtain ⟨rfl, -⟩ := List.append_inj' hcut rfl
      exact ⟨mtime, hdir⟩
    · have hends : key ++ [name] = (front ++ nm :: more) ++ [last] := by rw [hcut]; simp
      exact h.above front nm more (List.append_inj' hends rfl).1
  plain := by
    intro n hn
    rcases List.mem_append.1 hn with hn | hn
    · exact h.plain n hn
    · rw [List.mem_singleton.1 hn]
      exact hplain
  short := by
    intro n hn
    rcases List.mem_append.1 hn with hn | hn
    · exact h.short n hn
    · rw [List.mem_singleton.1 hn]
      exact hshort

theorem Stands.of_directory {mtime : Time} (h : host.get? key = some (.directory mtime)) : host.Stands key :=
  ⟨_, h, by simp [HostEntry.kind], fun _ => rfl⟩

theorem Physical.stands_dropLast (h : host.Physical key) {mtime : Time}
    (hdir : host.get? key = some (.directory mtime)) : host.Stands key.dropLast := by
  cases hlast : key.getLast? with
  | none =>
    obtain rfl := List.getLast?_eq_none_iff.1 hlast
    exact .of_directory hdir
  | some last =>
    obtain ⟨front, rfl⟩ := List.getLast?_eq_some_iff.1 hlast
    obtain ⟨above, habove⟩ := h.above front last [] rfl
    rw [List.dropLast_concat]
    exact .of_directory habove

theorem Physical.linkBase (h : host.Physical here) (target : FsPath) : host.Physical (linkBase here target) := by
  unfold Host.linkBase
  split
  · exact physical_nil host
  · exact h

end Physical

/-- a step to another place is a step to a physical path, where something stands that is no link -/
theorem step_physical {host : Host} {here there : HostKey} {piece : List UInt8} (hhere : host.Physical here)
    (hpiece : FsPath.slash ∉ piece) (h : host.step here piece = .ok (.place there)) :
    host.Physical there ∧ host.Stands there := by
  unfold step at h
  split at h
  · next mtime hdir =>
    split_ifs at h with hblank hup hlong
    · cases h
      exact ⟨hhere, .of_directory hdir⟩
    · cases h
      exact ⟨hhere.dropLast, hhere.stands_dropLast hdir⟩
    · split at h
      · cases h
      · cases h
      · next entry hnolink hentry =>
        cases h
        have hplain := plainBytes_of_piece hpiece hblank hup
        refine ⟨hhere.snoc hdir hplain (Nat.le_of_not_lt hlong), entry, hentry, ?_, by simp⟩
        cases entry with
        | link target t => exact (hnolink target t rfl).elim
        | _ => simp [HostEntry.kind]
  · cases h

/-- **A walk ends at a physical path, and at an object that is no link.** -/
theorem walk_physical {host : Host} {stepwise : Bool} {links : Nat} {here key : HostKey} {pieces : List (List UInt8)}
    (hhere : host.Physical here) (hpieces : ∀ piece ∈ pieces, FsPath.slash ∉ piece)
    (hstands : pieces = [] → host.Stands here) (h : host.walk stepwise links here pieces = .ok key) :
    host.Physical key ∧ host.Stands key := by
  -- along the recursion of the walk: the place reached so far is physical, and stands once nothing is left
  fun_induction host.walk stepwise links here pieces with
  | case1 links here =>
    cases h
    exact ⟨hhere, hstands rfl⟩
  | case2 => cases h
  | case3 => cases h
  | case4 links here piece rest _ there hstep ih =>
    rw [List.forall_mem_cons] at hpieces
    obtain ⟨hphysical, hstands⟩ := step_physical hhere hpieces.1 hstep
    exact ih hphysical hpieces.2 (fun _ => hstands) h
  | case5 => cases h
  | case6 here piece rest _ target hstep left ih =>
    rw [List.forall_mem_cons] at hpieces
    refine ih (hhere.linkBase target) (fun p hp => ?_) (fun hnil => ?_) h
    · rcases List.mem_append.1 hp with hp | hp
      · exact Text.noSlash_of_mem_split hp
      · exact hpieces.2 p hp
    · exact absurd (List.append_eq_nil_iff.1 hnil).1 (Text.split_ne_nil _ _)

/-- a plain name in a directory -/
theorem step_plain {host : Host} {here : HostKey} {mtime : Time} (hdir : host.get? here = some (.directory mtime))
    {name : List UInt8} (hname : PlainBytes name) : host.step here name =
      if nameLimit < name.length then .error .nameTooLong
      else match host.get? (here ++ [name]) with
        | none => .error .noEntry
        | some (.link target _) => .ok (.link target)
        | some _ => .ok (.place (here ++ [name])) := by
  have hstep := hname.notBlank
  have hblank : ¬ (name = [] ∨ name = [FsPath.dot]) := by
    intro hb
    rw [FsPath.component?_of_blank hb] at hstep
    cases hstep
  have hup : name ≠ [FsPath.dot, FsPath.dot] := by
    intro hb
    rw [FsPath.component?, if_neg hblank, if_pos hb] at hstep
    cases hstep
  rw [step, hdir]
  exact (if_neg hblank).trans (if_neg hup)

/-- **A physical path leads to itself**, stepwise if it is short enough. -/
theorem walk_of_physical {host : Host} {stepwise : Bool} {links : Nat} {here key : HostKey}
    (h : host.Physical (here ++ key)) (hstands : host.Stands (here ++ key))
    (hnear : stepwise = true → (FsPath.ofNames (here ++ key)).bytes.length < pathLimit) :
    host.walk stepwise links here key = .ok (here ++ key) := by
  induction key generalizing here with
  | nil => rw [walk, List.append_nil]
  | cons name rest ih =>
    obtain ⟨mtime, hdir⟩ := h.above here name rest rfl
    have hplain : ∀ n ∈ name :: rest, PlainBytes n := fun n hn => h.plain n (List.mem_append_right _ hn)
    have hshort := h.short name (by simp)
    rw [List.forall_mem_cons] at hplain
    have hsplit : here ++ name :: rest = (here ++ [name]) ++ rest := by simp
    rw [hsplit] at h hstands hnear ⊢
    have hnearer : ¬ (stepwise = true ∧ pathLimit ≤ host.asking here (name :: rest)) := by
      rintro ⟨hstepwise, hfar⟩
      have hlength := FsPath.length_ofNames_le (here ++ [name]) rest
      have hlimit := hnear hstepwise
      rw [asking_plain hplain.1 hplain.2] at hfar
      omega
    -- on the way there are directories, at the end there is no link
    have hentry : host.Stands (here ++ [name]) := by
      cases rest with
      | nil =>
        rw [List.append_nil] at hstands
        exact hstands
      | cons next more =>
        obtain ⟨t, ht⟩ := h.above (here ++ [name]) next more rfl
        exact .of_directory ht
    obtain ⟨entry, hget, hkind, -⟩ := hentry
    rw [walk, if_neg hnearer, step_plain hdir hplain.1, if_neg (Nat.not_lt.2 hshort), hget]
    cases entry with
    | link target t => exact absurd rfl hkind
    | _ => exact ih h hstands hnear

/-! ## Paths made physical -/

/-- a physical path begins with another exactly when its names do -/
theorem startsWith_ofNames {key base : HostKey} (hkey : ∀ name ∈ key, PlainBytes name)
    (hbase : ∀ name ∈ base, PlainBytes name) :
    (FsPath.ofNames key).startsWith (FsPath.ofNames base) = true ↔ base <+: key := by
  have hinj : Function.Injective FsComponent.normal := fun a b h => by cases h; rfl
  rw [FsPath.startsWith, FsPath.components_ofNames hkey, FsPath.components_ofNames hbase, List.isPrefixOf_iff_prefix,
    List.cons_prefix_cons, and_iff_right rfl, List.prefix_map_iff_of_injective hinj]

theorem canonical_physical {host : Host} (hcwd : host.CwdPhysical) {path : FsPath} {key : HostKey}
    (h : host.canonical path = .ok key) : host.Physical key ∧ host.Stands key := by
  have hwalk : ∀ here, host.Physical here →
      host.walk true linkLimit here (Text.split FsPath.slash path.bytes) = .ok key → host.Physical key ∧ host.Stands key :=
    fun here hhere hw => walk_physical hhere (fun piece hp => Text.noSlash_of_mem_split hp)
      (fun hnil => absurd hnil (Text.split_ne_nil _ _)) hw
  unfold canonical follow at h
  split at h
  · cases h
  split at h
  · exact hwalk [] (physical_nil host) h
  split at h
  · next here hc =>
    split at h
    · cases h
    · exact hwalk here (hcwd here hc) h
  · cases h

/-- a physical path is what its own text leads to, if the host can take the text at all -/
theorem follow_ofNames {host : Host} {stepwise : Bool} {key : HostKey} (hp : host.Physical key) (hs : host.Stands key)
    (hnear : stepwise = true → (FsPath.ofNames key).bytes.length < pathLimit) :
    host.follow stepwise (FsPath.ofNames key) = if 0 ∈ (FsPath.ofNames key).bytes then .error .zeroByte else .ok key := by
  have hself : host.walk stepwise linkLimit [] key = .ok key := walk_of_physical hp hs hnear
  have hrooted : (FsPath.ofNames key).isRooted = true := rfl
  rw [follow, if_pos hrooted, FsPath.split_ofNames hp.plain]
  congr 1
  split_ifs with hnil
  · obtain rfl := hnil
    obtain ⟨entry, hget, -, hdir⟩ := hs
    cases entry with
    | directory mtime =>
      have hnear : ¬ (stepwise = true ∧ pathLimit ≤ host.asking [] [[]]) := by
        have hnothing : host.asking [] [[]] = 0 := asking_blank rfl
        simp [hnothing, pathLimit]
      have hstep : host.step [] [] = .ok (.place []) := by simp [step, hget]
      rw [walk_cons_blank rfl (List.cons_ne_nil _ _), walk, if_neg hnear, hstep]
      simp only [walk]
    | _ => exact absurd (hdir rfl) (by simp [HostEntry.kind])
  · rw [walk_cons_blank rfl hnil, hself]

/-- the host, asked for a physical path, comes to the very object -/
theorem locate_ofNames {host : Host} {key there : HostKey} (hp : host.Physical key) (hs : host.Stands key)
    (h : host.locate (FsPath.ofNames key) = .ok there) : there = key := by
  unfold locate at h
  split at h
  · cases h
  split at h
  · cases h
  next h0 _ =>
    rw [follow_ofNames hp hs (by simp), if_neg h0] at h
    exact (Except.ok.inj h).symm

end Host

end MountSpace

/-
A view never leaves its root. The root is taken as it stands once it has been made physical: a path that the host leads
to the very names it is written with (`Rooted`). Whatever path is asked for, with double dots, blank pieces and links of
any kind on the way, the object that a call acts on is at or below the root, name by name (`asked_below`); and a path
that leads to an object anywhere else is refused as an escape, and no other path is (`escapes_iff`).

The view drops the separator that a path begins with, and blank pieces at both ends of it. That changes nothing for a
path that leads somewhere: the host comes to the same object from the text of the root and the text of the path with a
separator between them (`keyIn_of_text`).

Main result: `view_confined`.
-/
import Mathlib
import MountSpace.Proofs.Host.Shown

namespace MountSpace

namespace Text

variable {α : Type} [DecidableEq α]

theorem mem_of_mem_piece {sep a : α} {l piece : List α} (hp : piece ∈ split sep l) (ha : a ∈ piece) : a ∈ l := by
  induction l generalizing piece with
  | nil =>
    rw [split, List.mem_singleton] at hp
    rw [hp] at ha
    exact ha
  | cons c rest ih =>
    rw [split] at hp
    split at hp
    · rcases List.mem_cons.1 hp with rfl | hp
      · cases ha
      · exact List.mem_cons_of_mem _ (ih hp ha)
    · split at hp
      · rw [List.mem_singleton.1 hp, List.mem_singleton] at ha
        rw [ha]
        exact List.mem_cons_self
      · next first more hs =>
        rcases List.mem_cons.1 hp with rfl | hp
        · rcases List.mem_cons.1 ha with rfl | ha
          · exact List.mem_cons_self
          · exact List.mem_cons_of_mem _ (ih (by simp [hs]) ha)
        · exact List.mem_cons_of_mem _ (ih (by simp [hs, hp]) ha)

omit [DecidableEq α] in
theorem mem_join {sep a : α} {pieces : List (List α)} (h : a ∈ join sep pieces) :
    a = sep ∨ ∃ piece ∈ pieces, a ∈ piece := by
  induction pieces with
  | nil => cases h
  | cons piece rest ih =>
    cases rest with
    | nil => exact .inr ⟨piece, List.mem_cons_self, h⟩
    | cons next more =>
      rw [join, List.mem_append, List.mem_cons] at h
      rcases h with h | rfl | h
      · exact .inr ⟨piece, List.mem_cons_self, h⟩
      · exact .inl rfl
      · rcases ih h with hsep | ⟨found, hm, ha⟩
        · exact .inl hsep
        · exact .inr ⟨found, List.mem_cons_of_mem _ hm, ha⟩

end Text

namespace FsPath

theorem head_of_isRooted {p : FsPath} (hp : p.isRooted = true) : (Text.split slash p.bytes).head? = some [] := by
  obtain ⟨first, more, hs⟩ := List.exists_cons_of_ne_nil (Text.split_ne_nil slash p.bytes)
  rw [hs, ((isRooted_iff_pieces hs).1 hp).1]
  rfl

/-- the pieces of a rooted path: blank ones, those that stay without its root, and blank ones again -/
theorem withoutRoot_pieces {p : FsPath} (hp : p.isRooted = true) : ∃ front inner back,
    (∀ piece ∈ front ++ back, component? piece = none) ∧ Text.split slash p.bytes = front ++ (inner ++ back) ∧
      Text.split slash p.withoutRoot.bytes = (if inner = [] then [[]] else inner) ∧
      p.withoutRoot.isRooted = false := by
  have hcut : ∀ l, ∃ front, (∀ piece ∈ front, component? piece = none) ∧ l = front ++ dropBlank l := by
    intro l
    refine ⟨l.takeWhile fun piece => (component? piece).isNone, fun piece hm => ?_, ?_⟩
    · have hblank := List.mem_takeWhile_imp hm
      exact Option.isNone_iff_eq_none.1 hblank
    · exact (List.takeWhile_append_dropWhile).symm
  obtain ⟨front, hfront, hf⟩ := hcut (Text.split slash p.bytes)
  obtain ⟨back, hback, hb⟩ := hcut (dropBlank (Text.split slash p.bytes)).reverse
  set inner := (dropBlank (dropBlank (Text.split slash p.bytes)).reverse).reverse
  have hrest : dropBlank (Text.split slash p.bytes) = inner ++ back.reverse := by
    have hturned := congrArg List.reverse hb
    rwa [List.reverse_reverse, List.reverse_append] at hturned
  have hsplit : Text.split slash p.bytes = front ++ (inner ++ back.reverse) := by rw [← hrest]; exact hf
  have hbytes : p.withoutRoot.bytes = Text.join slash inner := by rw [withoutRoot, if_pos hp]
  have hinner : Text.split slash p.withoutRoot.bytes = if inner = [] then [[]] else inner := by
    rw [hbytes]
    split_ifs with hnil
    · rw [hnil]
      rfl
    · refine Text.split_join slash hnil fun piece hm => Text.noSlash_of_mem_split (l := p.bytes) ?_
      rw [hsplit]
      exact List.mem_append_right _ (List.mem_append_left _ hm)
  refine ⟨front, inner, back.reverse, fun piece hm => ?_, hsplit, hinner, ?_⟩
  · rcases List.mem_append.1 hm with hm | hm
    · exact hfront piece hm
    · exact hback piece (List.mem_reverse.1 hm)
  · -- what stays begins where the first run of blank pieces ends
    rw [← Bool.not_eq_true]
    intro hroot
    cases hcase : inner with
    | nil => rw [isRooted, hbytes, hcase] at hroot; cases hroot
    | cons first more =>
      rw [hcase, if_neg (List.cons_ne_nil _ _)] at hinner
      have hhead : (dropBlank (Text.split slash p.bytes)).head? = some first := by rw [hrest, hcase]; rfl
      rw [((isRooted_iff_pieces hinner).1 hroot).1] at hhead
      exact component?_head_dropBlank hhead rfl

/-- without its root a path is not rooted any more, and every byte of it but separators was there before -/
theorem withoutRoot_bytes (p : FsPath) : p.withoutRoot.isRooted = false ∧
    ∀ byte ∈ p.withoutRoot.bytes, byte = slash ∨ byte ∈ p.bytes := by
  cases hp : p.isRooted with
  | false =>
    have hself : p.withoutRoot = p := by rw [withoutRoot, hp]; rfl
    rw [hself]
    exact ⟨hp, fun _ hm => .inr hm⟩
  | true =>
    obtain ⟨front, inner, back, -, hsplit, hinner, hroot⟩ := withoutRoot_pieces hp
    refine ⟨hroot, fun byte hm => ?_⟩
    rw [← Text.join_split slash p.withoutRoot.bytes] at hm
    refine (Text.mem_join hm).imp_right ?_
    rintro ⟨piece, hpiece, hbyte⟩
    rw [hinner] at hpiece
    split_ifs at hpiece with hnil
    · rw [List.mem_singleton.1 hpiece] at hbyte
      cases hbyte
    · have hpiece : piece ∈ Text.split slash p.bytes := by
        rw [hsplit]
        exact List.mem_append_right _ (List.mem_append_left _ hpiece)
      exact Text.mem_of_mem_piece hpiece hbyte

/-- joined to a rooted path, a path that is not rooted comes after a separator, unless one is there already -/
theorem join_eq {root inner : FsPath} (hroot : root.isRooted = true) (hinner : inner.isRooted = false) :
    (∃ front, root.bytes = front ++ [slash] ∧ (root.join inner).bytes = front ++ slash :: inner.bytes) ∨
      (root.join inner).bytes = root.bytes ++ slash :: inner.bytes := by
  have hne : root.bytes ≠ [] := by
    intro hnil
    rw [isRooted, hnil] at hroot
    cases hroot
  rw [join, hinner]
  simp only [Bool.false_eq_true, if_false, hne, false_or]
  split
  · next hlast =>
    obtain ⟨front, hfront⟩ := List.getLast?_eq_some_iff.1 hlast
    exact .inl ⟨front, hfront, by simp [hfront]⟩
  · exact .inr rfl

theorem isRooted_join {root : FsPath} (hroot : root.isRooted = true) (p : FsPath) : (root.join p).isRooted = true := by
  cases hp : p.isRooted with
  | true => rw [join, hp]; exact hp
  | false =>
    obtain ⟨first, more, hbytes⟩ : ∃ first more, root.bytes = first :: more := by
      cases hb : root.bytes with
      | nil => rw [isRooted, hb] at hroot; cases hroot
      | cons first more => exact ⟨first, more, rfl⟩
    rw [isRooted, hbytes] at hroot
    rw [join, hp]
    simp only [Bool.false_eq_true, if_false]
    split
    all_goals
      rw [isRooted, hbytes]
      exact hroot

/-- names without a zero byte make a path without one -/
theorem zero_notMem_ofNames {names : List (List UInt8)} (h : ∀ name ∈ names, 0 ∉ name) :
    0 ∉ (FsPath.ofNames names).bytes := by
  intro hm
  rcases List.mem_cons.1 hm with hslash | hm
  · exact absurd hslash (by decide)
  · rcases Text.mem_join hm with hslash | ⟨name, hn, h0⟩
    · exact absurd hslash (by decide)
    · exact h name hn h0

end FsPath

namespace Host

/-- a root that is physical already: the host leads it to the names it is written with -/
structure Rooted (host : Host) (root : FsPath) (base : HostKey) : Prop where
  leads : host.canonical root = .ok base
  written : root.components = (FsPath.ofNames base).components

/-- the path of a physical path is such a root, if it is short enough -/
theorem rooted_ofNames {host : Host} {base : HostKey} (hphysical : host.Physical base) (hstands : host.Stands base)
    (hzero : ∀ name ∈ base, 0 ∉ name) (hnear : (FsPath.ofNames base).bytes.length < pathLimit) :
    host.Rooted (.ofNames base) base where
  leads := by rw [canonical, follow_ofNames hphysical hstands fun _ => hnear, if_neg (FsPath.zero_notMem_ofNames hzero)]
  written := rfl

/-- a view set up at a path that leads somewhere near enough has such a root -/
theorem viewRoot_rooted {host : Host} (hcwd : host.CwdPhysical) {given : FsPath} {base : HostKey}
    (h : host.canonical given = .ok base) (hzero : ∀ name ∈ base, 0 ∉ name)
    (hnear : (FsPath.ofNames base).bytes.length < pathLimit) : host.Rooted (host.viewRoot given) base := by
  obtain ⟨hphysical, hstands⟩ := canonical_physical hcwd h
  rw [viewRoot, h]
  exact rooted_ofNames hphysical hstands hzero hnear

/-! ## Walks without the root -/

/-- a walk along a path that comes to an end does so without its root and the blank pieces at its ends -/
theorem walk_withoutRoot {host : Host} {stepwise : Bool} {links : Nat} {here key : HostKey}
    {before : List (List UInt8)} {path : FsPath}
    (h : host.walk stepwise links here (before ++ Text.split FsPath.slash path.bytes) = .ok key) :
    host.walk stepwise links here (before ++ Text.split FsPath.slash path.withoutRoot.bytes) = .ok key := by
  cases hp : path.isRooted with
  | false =>
    have hself : path.withoutRoot = path := by rw [FsPath.withoutRoot, hp]; rfl
    rw [hself]
    exact h
  | true =>
    obtain ⟨front, inner, back, hblanks, hsplit, hinner, -⟩ := FsPath.withoutRoot_pieces hp
    rw [List.forall_mem_append] at hblanks
    rw [hinner]
    split_ifs with hnil
    · -- nothing stays but the first of the blank pieces
      have hall : ∀ piece ∈ Text.split FsPath.slash path.bytes, FsPath.component? piece = none := by
        rw [hsplit, hnil, List.nil_append, List.forall_mem_append]
        exact hblanks
      have hfirst := FsPath.head_of_isRooted hp
      cases hpieces : Text.split FsPath.slash path.bytes with
      | nil => exact absurd hpieces (Text.split_ne_nil _ _)
      | cons first more =>
        rw [hpieces] at h hfirst hall
        cases hfirst
        rw [List.forall_mem_cons] at hall
        have hmore : host.walk stepwise links here ((before ++ [[]]) ++ (more ++ [])) = .ok key := by simpa using h
        have hless := walk_without hall.2 hmore
        rwa [List.append_nil] at hless
    · rw [hsplit] at h
      have hback := walk_without hblanks.1 h
      have hends : host.walk stepwise links here ((before ++ inner) ++ (back ++ [])) = .ok key := by simpa using hback
      have hless := walk_without hblanks.2 hends
      rwa [List.append_nil] at hless

theorem canonical_rooted {host : Host} {path : FsPath} (hpath : path.isRooted = true) {key : HostKey} :
    host.canonical path = .ok key ↔
      0 ∉ path.bytes ∧ host.walk true linkLimit [] (Text.split FsPath.slash path.bytes) = .ok key := by
  rw [canonical, follow, if_pos hpath]
  split
  · next h0 => simp [h0]
  · next h0 => simp [h0]

/-- a rooted path leads to a physical path, wherever the host works -/
theorem physical_of_rooted {host : Host} {path : FsPath} (hpath : path.isRooted = true) {key : HostKey}
    (h : host.canonical path = .ok key) : host.Physical key ∧ host.Stands key :=
  walk_physical (physical_nil host) (fun _ hp => Text.noSlash_of_mem_split hp)
    (fun hnil => absurd hnil (Text.split_ne_nil _ _)) ((canonical_rooted hpath).1 h).2

section Rooted

variable {host : Host} {root : FsPath} {base : HostKey} (h : host.Rooted root base)
include h

theorem Rooted.isRooted : root.isRooted = true := by
  rw [← FsPath.startsWith_rootPath, FsPath.startsWith, h.written]
  rfl

theorem Rooted.physical : host.Physical base ∧ host.Stands base := physical_of_rooted h.isRooted h.leads

/-- a physical path begins with the root exactly when its names begin with those of the root -/
theorem Rooted.startsWith_iff {key : HostKey} (hkey : host.Physical key) :
    (FsPath.ofNames key).startsWith root = true ↔ base <+: key := by
  rw [← startsWith_ofNames hkey.plain h.physical.1.plain, FsPath.startsWith, FsPath.startsWith, h.written]

/-! ## The object asked for -/

theorem keyIn_physical {path : FsPath} {key : HostKey} (hk : host.keyIn root path = .ok key) :
    host.Physical key ∧ host.Stands key :=
  physical_of_rooted (FsPath.isRooted_join h.isRooted _) hk

/-- a path of which nothing is left stands for the root, and any other for what it leads to -/
theorem asked_eq {path : FsPath} {key : HostKey} (ha : host.Asked root path key) :
    if path.withoutRoot.bytes = [] then key = base else host.Shows root path key := by
  obtain ⟨physical, hv, hl⟩ := ha
  split
  · next hnil =>
    rw [viewPath, if_pos hnil] at hv
    cases hv
    have hnear : root.bytes.length < pathLimit := by
      by_contra hfar
      rw [locate, if_pos (Nat.le_of_not_lt hfar)] at hl
      split at hl <;> cases hl
    rw [locate_of_canonical h.leads hnear] at hl
    exact (Except.ok.inj hl).symm
  · next hpath =>
    obtain ⟨there, hshows, rfl⟩ := viewPath_eq_ok hpath hv
    obtain ⟨hphysical, hstands⟩ := keyIn_physical h hshows.leads
    rw [locate_ofNames hphysical hstands hl]
    exact hshows

/-- **A call acts at or below the root**: on the root itself, or on what the path leads to. -/
theorem asked_below {path : FsPath} {key : HostKey} (ha : host.Asked root path key) :
    base <+: key ∧ host.Physical key ∧ host.Stands key := by
  have heq := asked_eq h ha
  split at heq
  · rw [heq]
    exact ⟨List.prefix_refl base, h.physical⟩
  · obtain ⟨hphysical, hstands⟩ := keyIn_physical h heq.leads
    exact ⟨(h.startsWith_iff hphysical).1 heq.inside, hphysical, hstands⟩

/-! ## Escapes -/

/-- what leads on from the root by blank pieces alone is the root -/
theorem keyIn_nothing {path : FsPath} (hpath : path.withoutRoot.bytes = []) {key : HostKey}
    (hk : host.keyIn root path = .ok key) : key = base := by
  have hroot := h.isRooted
  have hinner : path.withoutRoot.isRooted = false := by rw [FsPath.isRooted, hpath]; rfl
  have hleads := (canonical_rooted hroot).1 h.leads
  obtain ⟨-, hwalk⟩ := (canonical_rooted (FsPath.isRooted_join hroot _)).1 hk
  have hbase : host.walk true linkLimit [] (Text.split FsPath.slash root.bytes) = .ok key := by
    rcases FsPath.join_eq hroot hinner with ⟨front, hfront, hjoin⟩ | hjoin
    · rw [hjoin, hpath, ← hfront] at hwalk
      exact hwalk
    · rw [hjoin, hpath, Text.split_append_cons] at hwalk
      have hblank : ∀ piece ∈ [([] : List UInt8)], FsPath.component? piece = none := by simp [FsPath.component?]
      have hends : host.walk true linkLimit [] (Text.split FsPath.slash root.bytes ++ ([[]] ++ [])) = .ok key := hwalk
      have hless := walk_without hblank hends
      rwa [List.append_nil] at hless
  rw [hleads.2] at hbase
  exact (Except.ok.inj hbase).symm

omit h in
/-- all three calls are refused as an escape, in the same words -/
structure Escapes (host : Host) (root path : FsPath) (text : String) : Prop where
  getattr : (host.view root).getattr path = .error (.escapesRoot text)
  readdir : (host.view root).readdir path = .error (.escapesRoot text)
  read : ∀ offset size, (host.view root).read path offset size = .error (.escapesRoot text)

omit h in
/-- calls are refused as an escape by the path alone -/
theorem escapes_iff_viewPath {path : FsPath} {text : String} :
    host.Escapes root path text ↔ host.viewPath root path = .error (.escapesRoot text) := by
  constructor
  · intro he
    have hgetattr : host.viewGetattr root path = .error (.escapesRoot text) := he.getattr
    unfold viewGetattr viewEntry at hgetattr
    cases hv : host.viewPath root path with
    | error e =>
      rw [hv] at hgetattr
      cases hgetattr
      rfl
    | ok physical =>
      simp only [hv] at hgetattr
      cases hs : host.stat physical with
      | error e =>
        rw [hs] at hgetattr
        cases hgetattr
      | ok entry =>
        rw [hs] at hgetattr
        cases hgetattr
  · intro hv
    have hentry : host.viewEntry root path = .error (.escapesRoot text) := by rw [viewEntry, hv]
    refine ⟨?_, ?_, fun offset size => ?_⟩
    · show host.viewGetattr root path = _
      rw [viewGetattr, hentry]
      rfl
    · show host.viewReaddir root path = _
      rw [viewReaddir, hv]
    · show host.viewRead root path offset size = _
      rw [viewRead, hentry]

/-- **What is refused as an escape** is what leads to an object outside the root. -/
theorem escapes_iff (path : FsPath) : (∃ text, host.Escapes root path text) ↔
    ∃ key, host.keyIn root path = .ok key ∧ ¬ base <+: key := by
  simp only [escapes_iff_viewPath]
  by_cases hpath : path.withoutRoot.bytes = []
  · have hview : host.viewPath root path = .ok root := by rw [viewPath, if_pos hpath]
    rw [hview]
    constructor
    · rintro ⟨text, ht⟩
      cases ht
    · rintro ⟨key, hk, hout⟩
      rw [keyIn_nothing h hpath hk] at hout
      exact absurd (List.prefix_refl base) hout
  · rw [viewPath_eq hpath]
    cases hk : host.keyIn root path with
    | error e => simp
    | ok key =>
      have hiff := h.startsWith_iff (keyIn_physical h hk).1
      by_cases hin : base <+: key
      · simp [hiff.2 hin, hin]
      · have hstarts : (FsPath.ofNames key).startsWith root = false := by
          rw [Bool.eq_false_iff]
          exact fun hs => hin (hiff.1 hs)
        simp [hstarts, hin]

/-! ## The path as it is written -/

/-- **The path may be read as it stands**: where the text of the root, a separator and the text of the path lead, there
leads the path that the view makes of it. -/
theorem keyIn_of_text {path : FsPath} {key : HostKey}
    (hk : host.canonical ⟨root.bytes ++ FsPath.slash :: path.bytes⟩ = .ok key) : host.keyIn root path = .ok key := by
  have hroot := h.isRooted
  have hrooted : FsPath.isRooted ⟨root.bytes ++ FsPath.slash :: path.bytes⟩ = true := by
    have hfirst := hroot
    unfold FsPath.isRooted at hfirst ⊢
    cases hb : root.bytes with
    | nil => rfl
    | cons first more =>
      rw [hb] at hfirst
      exact hfirst
  obtain ⟨hzero, hwalk⟩ := (canonical_rooted hrooted).1 hk
  simp only [List.mem_append, List.mem_cons, not_or] at hzero
  rw [Text.split_append_cons] at hwalk
  have hless := walk_withoutRoot hwalk
  obtain ⟨hinner, hbytes⟩ := path.withoutRoot_bytes
  have hinnerZero : 0 ∉ path.withoutRoot.bytes := by
    intro hm
    rcases hbytes 0 hm with hslash | hpath
    · exact absurd hslash (by decide)
    · exact hzero.2.2 hpath
  rw [keyIn, canonical_rooted (FsPath.isRooted_join hroot _)]
  rcases FsPath.join_eq hroot hinner with ⟨front, hfront, hjoin⟩ | hjoin
  · rw [hfront, Text.split_append_cons, List.append_assoc] at hless
    have hblank : ∀ piece ∈ Text.split FsPath.slash ([] : List UInt8), FsPath.component? piece = none := by
      simp [Text.split, FsPath.component?]
    rw [hjoin, Text.split_append_cons]
    rw [hfront] at hzero
    refine ⟨?_, walk_without hblank hless⟩
    simp only [List.mem_append, List.mem_cons, not_or] at hzero ⊢
    exact ⟨hzero.1.1, hzero.2.1, hinnerZero⟩
  · rw [hjoin, Text.split_append_cons]
    refine ⟨?_, hless⟩
    simp only [List.mem_append, List.mem_cons, not_or]
    exact ⟨hzero.1, hzero.2.1, hinnerZero⟩

/-! ## Calls -/

omit h in
/-- the object that calls with a path are about: the host comes to it for what the view makes of the path, at or below the
base -/
structure ActsOn (host : Host) (root path : FsPath) (base key : HostKey) : Prop where
  asked : host.Asked root path key
  /-- it is the base for a path of which nothing is left, and what the path leads to for any other -/
  leads : if path.withoutRoot.bytes = [] then key = base else host.keyIn root path = .ok key
  physical : host.Physical key
  stands : host.Stands key
  below : base <+: key

theorem actsOn_of_asked {path : FsPath} {key : HostKey} (ha : host.Asked root path key) :
    host.ActsOn root path base key := by
  obtain ⟨hbelow, hphysical, hstands⟩ := asked_below h ha
  refine ⟨ha, ?_, hphysical, hstands, hbelow⟩
  have heq := asked_eq h ha
  split_ifs at heq ⊢
  · exact heq
  · exact heq.leads

/-- **A view never leaves its root.** What attributes are told of, what is listed and what is read is the object at a
physical path at or below the root; and calls are refused as an escape exactly if the path leads to an object anywhere
else, also when the path is read as it stands after the root. -/
theorem view_confined (path : FsPath) :
    (∀ attributes, (host.view root).getattr path = .ok attributes → ∃ key entry, host.ActsOn root path base key ∧
      host.get? key = some entry ∧ attributes = entry.attributes) ∧
    (∀ entries, (host.view root).readdir path = .ok entries → ∃ key mtime, host.ActsOn root path base key ∧
      host.get? key = some (.directory mtime) ∧ entries = host.list key) ∧
    (∀ offset size chunk, (host.view root).read path offset size = .ok chunk → ∃ key data mtime,
      host.ActsOn root path base key ∧ host.get? key = some (.file data mtime) ∧
        chunk = data.extract (min offset data.size) (min (offset + size) data.size)) ∧
    ((∃ text, host.Escapes root path text) ↔ ∃ key, host.keyIn root path = .ok key ∧ ¬ base <+: key) ∧
    ∀ key, host.canonical ⟨root.bytes ++ FsPath.slash :: path.bytes⟩ = .ok key → ¬ base <+: key →
      ∃ text, host.Escapes root path text := by
  refine ⟨?_, ?_, ?_, escapes_iff h path, ?_⟩
  · intro attributes hok
    obtain ⟨key, entry, hasked, hg, hattributes⟩ := asked_of_viewGetattr hok
    exact ⟨key, entry, actsOn_of_asked h hasked, hg, hattributes⟩
  · intro entries hok
    obtain ⟨key, mtime, hasked, hg, hentries⟩ := asked_of_viewReaddir hok
    exact ⟨key, mtime, actsOn_of_asked h hasked, hg, hentries⟩
  · intro offset size chunk hok
    obtain ⟨key, data, mtime, hasked, hg, hchunk⟩ := asked_of_viewRead hok
    exact ⟨key, data, mtime, actsOn_of_asked h hasked, hg, hchunk⟩
  · intro key hk hout
    exact (escapes_iff h path).2 ⟨key, keyIn_of_text h hk, hout⟩

end Rooted

/-! ## A root beside a directory of a longer name -/

/-- a directory with a page and links in it: up out of it and, by way of that one, back in and over to the directory
beside it, whose name goes on from its own -/
def narrowHost : Host where
  entries := [
    ([], .directory 0),
    ([Text.encode "pub"], .directory 0),
    ([Text.encode "pub", Text.encode "page"], .file "p".toByteArray 0),
    ([Text.encode "pub", Text.encode "up"], .link (.ofString "..") 0),
    ([Text.encode "pub", Text.encode "back"], .link (.ofString "up//pub/.") 0),
    ([Text.encode "pub", Text.encode "over"], .link (.ofString "/pub/up/public") 0),
    ([Text.encode "public"], .directory 0)]

theorem narrow_rooted : narrowHost.Rooted (narrowHost.viewRoot (.ofString "/pub/back")) [Text.encode "pub"] := by
  have hcwd : narrowHost.CwdPhysical := by
    intro here hhere
    cases hhere
  exact viewRoot_rooted hcwd (by cbv) (by decide) (by decide)

/-- the page is read by way of the links back in, and the directory beside is refused -/
theorem narrow_confined :
    narrowHost.Rooted (narrowHost.viewRoot (.ofString "/pub/back")) [Text.encode "pub"] ∧
    (∃ key data mtime,
      narrowHost.ActsOn (narrowHost.viewRoot (.ofString "/pub/back")) (.ofString "//back/../pub/./page")
        [Text.encode "pub"] key ∧
      narrowHost.get? key = some (.file data mtime) ∧
      "p".toByteArray = data.extract (min 0 data.size) (min (0 + 1) data.size)) ∧
    ∃ text, narrowHost.Escapes (narrowHost.viewRoot (.ofString "/pub/back")) (.ofString "back/over") text := by
  have hpage := view_confined narrow_rooted (.ofString "//back/../pub/./page")
  have hover := view_confined narrow_rooted (.ofString "back/over")
  have hleads : narrowHost.keyIn (narrowHost.viewRoot (.ofString "/pub/back")) (.ofString "back/over") =
      .ok [Text.encode "public"] := by cbv
  refine ⟨narrow_rooted, hpage.2.2.1 0 1 _ (by cbv), hover.2.2.2.1.2 ⟨_, hleads, by decide⟩⟩

end Host

end MountSpace

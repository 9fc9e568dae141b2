/-
One tree kept twice, in a store in memory and below a root on the host (`Twins`). A path stands for the same place of both
if the store reads it as the names that the host comes to below the root (`Meets`); then both tell of the same thing there
(`Meets.getattr`, `Meets.readdir`, `Meets.content`). One name further on they meet again if there is something
(`Meets.below`). If there is nothing, the store does not find it, and the host says that there is no such name or that it
was asked below a file (`Meets.absent`), unless it cannot be asked for such a name there at all (`Host.Unfit`).

Every store has a twin on a host that takes its names and paths (`twins_putBelow`).
-/
import MountSpace.Proofs.Host.Onward
import MountSpace.Proofs.Memory.Listing
import MountSpace.Proofs.Space.Channels

namespace MountSpace

/-- the host cannot be asked for a name in a directory: the name has too many bytes, or a zero byte among them, or the
path to it has too many -/
def Host.Unfit (directory : HostKey) (name : String) : Prop :=
  nameLimit < (Text.encode name).length ∨ 0 ∈ Text.encode name ∨
    pathLimit ≤ (FsPath.ofNames (directory ++ [Text.encode name])).bytes.length

/-- a regular file of the same content, or a directory, in memory and on the host -/
inductive SameEntry : MemoryEntry → HostEntry → Prop where
  | file (data : ByteArray) (a : Attributes) (mtime : Time) : SameEntry (.file data a) (.file data mtime)
  | directory (a : Attributes) (mtime : Time) : SameEntry (.directory a) (.directory mtime)

/-- the attributes of the same entry tell the same kind and size, and so does its name in a listing -/
theorem SameEntry.attributes {entry : MemoryEntry} {other : HostEntry} (h : SameEntry entry other)
    (hregular : entry.Regular) : entry.attributes.kind = other.attributes.kind ∧
      entry.attributes.size = other.attributes.size ∧ entry.attributes.kind = other.kind := by
  cases h with
  | file data a mtime => exact ⟨hregular.1, hregular.2, hregular.1⟩
  | directory a mtime => exact ⟨hregular.1, hregular.2, hregular.1⟩

namespace Host

theorem entryIn_eq_nameIn (directory : HostKey) : entryIn directory = Flat.nameIn HostEntry.kind directory := rfl

theorem mem_list {host : Host} (honce : (host.entries.map Prod.fst).Nodup) {directory : HostKey} {e : Entry} :
    e ∈ host.list directory ↔
      ∃ name other, host.get? (directory ++ [name]) = some other ∧ e = ⟨Text.lossy name, other.kind⟩ := by
  rw [list, List.mem_mergeSort, entryIn_eq_nameIn]
  exact Flat.mem_namesIn honce

theorem list_increasing {host : Host} (honce : (host.entries.map Prod.fst).Nodup) {directory : HostKey}
    (hw : Flat.Worded host.entries directory) : (host.list directory).Pairwise fun a b => a.name < b.name := by
  rw [list, entryIn_eq_nameIn]
  exact Flat.listing_increasing honce hw

end Host

/-- the tree of a store and the tree below a root of the host are one tree of files and directories, with texts for names
that the host can be asked for and paths it can take -/
structure Twins (store : MemoryStore) (host : Host) (root : FsPath) (base : HostKey) : Prop where
  tidy : store.Tidy
  once : (host.entries.map Prod.fst).Nodup
  rooted : host.Rooted root base
  both : ∀ key entry, store.get? key = some entry → ∃ other, host.get? (base ++ key) = some other ∧ SameEntry entry other
  neither : ∀ key, store.get? key = none → host.get? (base ++ key) = none
  worded : ∀ directory, Flat.Worded store.entries directory
  fit : ∀ key entry, store.get? key = some entry → ∀ name ∈ key, name.length ≤ Host.nameLimit ∧ 0 ∉ name
  /-- the host can be asked for the root and for everything below it -/
  near : root.bytes.length < Host.pathLimit ∧
    ∀ key entry, store.get? key = some entry → (FsPath.ofNames (base ++ key)).bytes.length < Host.pathLimit
  /-- no file is larger than a file can be -/
  sized : ∀ key data a, store.get? key = some (.file data a) → data.size < 1 <<< 63

/-- a path stands for what is under a key in both trees -/
structure Meets (store : MemoryStore) (host : Host) (root : FsPath) (base : HostKey) (path : FsPath) (key : MemoryKey) :
    Prop where
  rooted : path.isRooted = true
  read : MemoryStore.normalize path = key
  /-- the root of the view stands for itself, and any other path for what it leads to -/
  leads : if path.withoutRoot.bytes = [] then key = [] else host.keyIn root path = .ok (base ++ key)
  present : (store.get? key).isSome

section Twins

variable {store : MemoryStore} {host : Host} {root path : FsPath} {base : HostKey} {key : MemoryKey}
  (h : Twins store host root base)
include h

theorem Twins.zero_notMem {entry : MemoryEntry} (hkey : store.get? key = some entry) :
    0 ∉ (FsPath.ofNames (base ++ key)).bytes := by
  refine FsPath.zero_notMem_ofNames fun name hname h0 => ?_
  rcases List.mem_append.1 hname with hname | hname
  · have hcomponent : FsComponent.normal name ∈ root.components := by
      rw [h.rooted.written, FsPath.components_ofNames h.rooted.physical.1.plain]
      exact List.mem_cons_of_mem _ (List.mem_map_of_mem hname)
    have hroot := ((Host.canonical_rooted h.rooted.isRooted).1 h.rooted.leads).1
    exact hroot (Text.mem_of_mem_piece (FsPath.exists_piece hcomponent).1 h0)
  · exact (h.fit key entry hkey name hname).2 h0

theorem Twins.nolink (target : FsPath) (mtime : Time) : host.get? (base ++ key) ≠ some (.link target mtime) := by
  intro hlink
  cases hget : store.get? key with
  | none =>
    rw [h.neither key hget] at hlink
    cases hlink
  | some entry =>
    obtain ⟨other, hother, hsame⟩ := h.both key entry hget
    rw [hother] at hlink
    cases hlink
    cases hsame

/-- the root is one place in both, and `Meets.below` leads on from it to every other -/
theorem Twins.meets_root : Meets store host root base .rootPath [] := by
  obtain ⟨a, ha⟩ := h.tidy.root
  have hnothing : FsPath.rootPath.withoutRoot.bytes = [] := rfl
  exact ⟨rfl, rfl, by rw [if_pos hnothing], Option.isSome_of_eq_some ha⟩

variable (hm : Meets store host root base path key)
include hm

/-! ## What both tell -/

/-- the host is asked for the very place -/
theorem Meets.asked : host.Asked root path (base ++ key) := by
  obtain ⟨entry, hkey⟩ := Option.isSome_iff_exists.1 hm.present
  have hleads := hm.leads
  split_ifs at hleads with hnothing
  · refine ⟨root, by rw [Host.viewPath, if_pos hnothing], ?_⟩
    rw [hleads, List.append_nil]
    exact Host.locate_of_canonical h.rooted.leads h.near.1
  · obtain ⟨hphysical, hstands⟩ := Host.keyIn_physical h.rooted hleads
    have hinside := (h.rooted.startsWith_iff hphysical).2 (List.prefix_append base key)
    refine ⟨.ofNames (base ++ key), by simp only [Host.viewPath_eq hnothing, hleads, hinside, if_true], ?_⟩
    have hzero := h.zero_notMem hkey
    rw [Host.locate, if_neg hzero, if_neg (Nat.not_le.2 (h.near.2 key entry hkey)),
      Host.follow_ofNames hphysical hstands (by simp), if_neg hzero]

/-- the entries of both trees -/
theorem Meets.entries : ∃ entry other, store.get? key = some entry ∧ host.get? (base ++ key) = some other ∧
    SameEntry entry other ∧ entry.Regular ∧ host.viewEntry root path = .ok other := by
  obtain ⟨entry, hkey⟩ := Option.isSome_iff_exists.1 hm.present
  obtain ⟨other, hother, hsame⟩ := h.both key entry hkey
  obtain ⟨physical, hview, hlocate⟩ := hm.asked h
  have hstat : host.stat physical = .ok other := Host.stat_eq_ok.2 ⟨_, hlocate, hother⟩
  refine ⟨entry, other, hkey, hother, hsame, h.tidy.regular key entry hkey, ?_⟩
  simp only [Host.viewEntry, hview, hstat]

theorem Meets.getattr : ∃ a b, store.getattr path = .ok a ∧ host.viewGetattr root path = .ok b ∧ a.kind = b.kind ∧
    a.size = b.size := by
  obtain ⟨entry, other, hkey, -, hsame, hregular, hview⟩ := hm.entries h
  obtain ⟨hkind, hsize, -⟩ := hsame.attributes hregular
  refine ⟨entry.attributes, other.attributes, ?_, by rw [Host.viewGetattr, hview]; rfl, hkind, hsize⟩
  rw [MemoryStore.getattr, hm.read, hkey]

/-- both lists are in strict order and hold the same names -/
theorem Meets.list {entries : List Entry} (hl : store.readdir path = .ok entries) :
    entries = host.list (base ++ key) := by
  have hworded : Flat.Worded host.entries (base ++ key) := by
    intro name other hother
    cases hentry : store.get? (key ++ [name]) with
    | some entry => exact h.worded key name entry hentry
    | none =>
      have hnone := h.neither _ hentry
      rw [← List.append_assoc, Host.get?, hother] at hnone
      cases hnone
  have hsorted := MemoryStore.readdir_increasing h.tidy hl (h.worded _)
  refine Flat.eq_of_increasing hsorted (Host.list_increasing h.once hworded) fun e => ?_
  rw [MemoryStore.mem_readdir h.tidy hl, Host.mem_list h.once, hm.read]
  constructor
  · rintro ⟨name, entry, hentry, rfl⟩
    obtain ⟨other, hother, hsame⟩ := h.both _ entry hentry
    obtain ⟨-, -, hkind⟩ := hsame.attributes (h.tidy.regular _ _ hentry)
    exact ⟨name, other, by rw [List.append_assoc, hother], by rw [hkind]⟩
  · rintro ⟨name, other, hother, rfl⟩
    rw [List.append_assoc] at hother
    cases hentry : store.get? (key ++ [name]) with
    | none =>
      rw [h.neither _ hentry] at hother
      cases hother
    | some entry =>
      obtain ⟨found, hfound, hsame⟩ := h.both _ entry hentry
      rw [hother] at hfound
      cases hfound
      obtain ⟨-, -, hkind⟩ := hsame.attributes (h.tidy.regular _ _ hentry)
      exact ⟨name, entry, hentry, by rw [hkind]⟩

theorem Meets.readdir : SameReading (store.readdir path) (host.viewReaddir root path) := by
  obtain ⟨entry, other, hkey, hother, hsame, -, -⟩ := hm.entries h
  obtain ⟨physical, hview, hlocate⟩ := hm.asked h
  cases hsame with
  | file data a mtime =>
    simp only [MemoryStore.readdir, hm.read, hkey, Host.viewReaddir, hview, hlocate, hother]
    exact rfl
  | directory a mtime =>
    have hdirectory : store.HasDirectory (MemoryStore.normalize path) := ⟨a, by rw [hm.read, hkey]⟩
    have hl := MemoryStore.readdir_eq_ok.2 ⟨hdirectory, rfl⟩
    have hhost : host.viewReaddir root path = .ok (host.list (base ++ key)) := by
      simp only [Host.viewReaddir, hview, hlocate, hother]
    rw [hl, hhost]
    exact hm.list h hl

/-- a file has the same bytes in both at every position that a file can have -/
theorem Meets.content {a : Attributes} (ha : store.getattr path = .ok a) (hkind : a.kind ≠ .directory) :
    ReadsAlike (· < 1 <<< 63) (store.read path) (host.viewRead root path) := by
  obtain ⟨entry, other, hkey, -, hsame, hregular, hview⟩ := hm.entries h
  rw [MemoryStore.getattr, hm.read, hkey] at ha
  cases ha
  cases hsame with
  | directory a mtime => exact absurd hregular.1 hkind
  | file data a mtime =>
    have hread : ∀ offset size, store.read path offset size =
        .ok (data.extract (min offset data.size) (min (offset + size) data.size)) := by
      intro offset size
      simp only [MemoryStore.read, hm.read, hkey]
    constructor
    · intro position size hposition
      simp only [hread, Host.viewRead, hview, if_neg (Nat.not_le.2 hposition)]
    · intro position size chunk hposition hchunk
      rw [hread] at hchunk
      cases hchunk
      exact slice_stays (h.sized key data a hkey) hposition

/-! ## One name further on -/

section Below

variable {name : String} (hname : nameFault? name = none)
include hname

/-- what the host makes of one name more -/
theorem Meets.keyIn_below {other : HostEntry} (hother : host.get? (base ++ key) = some other) :
    host.keyIn root (path.joinName name) =
      if 0 ∈ Text.encode name then .error .zeroByte
      else if Host.pathLimit ≤ (FsPath.ofNames (base ++ key ++ [Text.encode name])).bytes.length then .error .nameTooLong
      else if other.kind = .directory then
        if Host.nameLimit < (Text.encode name).length then .error .nameTooLong
        else if (host.get? (base ++ key ++ [Text.encode name])).isSome then .ok (base ++ key ++ [Text.encode name])
        else .error .noEntry
      else .error .notDirectory := by
  have hleads : if path.withoutRoot.bytes = [] then base ++ key = base else host.keyIn root path = .ok (base ++ key) := by
    simpa using hm.leads
  obtain ⟨left, hleft⟩ := Host.keyIn_join_plain h.rooted hm.rooted hleads (plainBytes_encode hname)
  have hnolink : ∀ target mtime, host.get? (base ++ key ++ [Text.encode name]) ≠ some (.link target mtime) := by
    intro target mtime
    rw [List.append_assoc]
    exact h.nolink target mtime
  exact hleft.trans (by rw [Host.walk_plain (plainBytes_encode hname) hother hnolink])

theorem Meets.below {entry : MemoryEntry} (hentry : store.get? (key ++ [Text.encode name]) = some entry) :
    Meets store host root base (path.joinName name) (key ++ [Text.encode name]) := by
  obtain ⟨hshort, hzero⟩ := h.fit _ entry hentry (Text.encode name) (by simp)
  have hnear := h.near.2 _ entry hentry
  obtain ⟨a, ha⟩ := h.tidy.inside (key ++ [Text.encode name]) (by simp) (Option.isSome_of_eq_some hentry)
  rw [List.dropLast_concat] at ha
  obtain ⟨other, hother, hsame⟩ := h.both key _ ha
  obtain ⟨last, hlast, -⟩ := h.both _ entry hentry
  have hdirectory : other.kind = .directory := by
    cases hsame
    rfl
  rw [← List.append_assoc] at hnear hlast
  refine ⟨FsPath.isRooted_join hm.rooted _, ?_, ?_, Option.isSome_of_eq_some hentry⟩
  · rw [MemoryStore.normalize_joinName path hname, hm.read]
  · rw [if_neg (path.withoutRoot_joinName_ne_nil hname), hm.keyIn_below h hname hother, if_neg hzero,
      if_neg (Nat.not_le.2 hnear), if_pos hdirectory, if_neg (Nat.not_lt.2 hshort), hlast, List.append_assoc]
    rfl

/-- where the store has nothing, the host finds nothing or cannot be asked -/
theorem Meets.absent (hnone : store.get? (key ++ [Text.encode name]) = none) :
    (∃ what, store.getattr (path.joinName name) = .error (.notFound what)) ∧
    ∃ e, host.viewGetattr root (path.joinName name) = .error (.system e) ∧
      (e = .noEntry ∨ e = .notDirectory ∨ Host.Unfit (base ++ key) name ∧ (e = .zeroByte ∨ e = .nameTooLong)) := by
  obtain ⟨-, other, -, hother, -, -, -⟩ := hm.entries h
  have hlost := h.neither _ hnone
  have hgetattr : ∀ e, host.keyIn root (path.joinName name) = .error e →
      host.viewGetattr root (path.joinName name) = .error (.system e) := by
    intro e he
    rw [Host.viewGetattr, Host.viewEntry, Host.viewPath_eq (path.withoutRoot_joinName_ne_nil hname), he]
    rfl
  have hkeyIn := hm.keyIn_below h hname hother
  refine ⟨⟨_, by rw [MemoryStore.getattr, MemoryStore.normalize_joinName path hname, hm.read, hnone]⟩, ?_⟩
  rw [List.append_assoc, hlost, Option.isSome_none, if_neg Bool.false_ne_true] at hkeyIn
  split_ifs at hkeyIn with hzero hfar hdirectory hlong
  · exact ⟨_, hgetattr _ hkeyIn, .inr (.inr ⟨.inr (.inl hzero), .inl rfl⟩)⟩
  · exact ⟨_, hgetattr _ hkeyIn, .inr (.inr ⟨.inr (.inr (by rwa [List.append_assoc])), .inr rfl⟩)⟩
  · exact ⟨_, hgetattr _ hkeyIn, .inr (.inr ⟨.inl hlong, .inr rfl⟩)⟩
  · exact ⟨_, hgetattr _ hkeyIn, .inl rfl⟩
  · exact ⟨_, hgetattr _ hkeyIn, .inr (.inl rfl)⟩

end Below

end Twins

/-! ## A store put on the host -/

/-- an entry of a store as an object of the host -/
def MemoryEntry.put : MemoryEntry → HostEntry
  | .file data a => .file data a.mtime
  | .directory a => .directory a.mtime

/-- a host of nothing but the tree of a store below a physical path -/
def MemoryStore.putBelow (store : MemoryStore) (base : HostKey) : Host where
  entries := (List.range base.length).map (fun n => (base.take n, .directory 0)) ++
    store.entries.map fun p => (base ++ p.1, p.2.put)

section Put

variable {store : MemoryStore} {base : HostKey} (htidy : store.Tidy)
include htidy

theorem putBelow_once : ((store.putBelow base).entries.map Prod.fst).Nodup := by
  rw [MemoryStore.putBelow, List.map_append, List.map_map, List.map_map, List.nodup_append]
  refine ⟨?_, ?_, ?_⟩
  · refine (List.nodup_map_iff_inj_on List.nodup_range).2 fun n hn m hm heq => ?_
    have hlength := congrArg List.length heq
    rw [List.mem_range] at hn hm
    simp only [Function.comp_apply, List.length_take] at hlength
    omega
  · have hkeys := htidy.once.map (f := (base ++ ·)) fun key other heq => List.append_cancel_left heq
    rwa [List.map_map] at hkeys
  · intro above habove key hkey heq
    obtain ⟨n, hn, rfl⟩ := List.mem_map.1 habove
    obtain ⟨p, -, rfl⟩ := List.mem_map.1 hkey
    have hlength := congrArg List.length heq
    rw [List.mem_range] at hn
    simp only [Function.comp_apply, List.length_take, List.length_append] at hlength
    omega

theorem get?_putBelow {key : MemoryKey} {other : HostEntry} :
    (store.putBelow base).get? (base ++ key) = some other ↔ ∃ entry, store.get? key = some entry ∧ other = entry.put := by
  rw [Host.get?, Table.lookup_eq_some_iff (putBelow_once htidy), MemoryStore.putBelow, List.mem_append, List.mem_map,
    List.mem_map]
  constructor
  · rintro (⟨n, hn, heq⟩ | ⟨⟨found, entry⟩, hm, heq⟩)
    · have hlength := congrArg List.length (Prod.ext_iff.1 heq).1
      rw [List.mem_range] at hn
      rw [List.length_take, List.length_append] at hlength
      omega
    · obtain ⟨hkey, rfl⟩ := Prod.ext_iff.1 heq
      obtain rfl := List.append_cancel_left hkey
      exact ⟨entry, (Table.lookup_eq_some_iff htidy.once).2 hm, rfl⟩
  · rintro ⟨entry, hentry, rfl⟩
    exact .inr ⟨(key, entry), (Table.lookup_eq_some_iff htidy.once).1 hentry, rfl⟩

theorem get?_above {front rest : HostKey} {name : List UInt8} (hcut : base = front ++ name :: rest) :
    (store.putBelow base).get? front = some (.directory 0) := by
  rw [Host.get?, Table.lookup_eq_some_iff (putBelow_once htidy), MemoryStore.putBelow, List.mem_append, List.mem_map]
  refine .inl ⟨front.length, ?_, ?_⟩
  · rw [List.mem_range, hcut, List.length_append, List.length_cons]
    omega
  · rw [hcut, List.take_left]

/-- **Every tree in memory has a twin on a host**, if the host takes its names and paths. -/
theorem twins_putBelow (hbase : ∀ name ∈ base, PlainBytes name ∧ name.length ≤ Host.nameLimit ∧ 0 ∉ name)
    (hworded : ∀ directory, Flat.Worded store.entries directory)
    (hfit : ∀ key entry, store.get? key = some entry → ∀ name ∈ key, name.length ≤ Host.nameLimit ∧ 0 ∉ name)
    (hnear : ∀ key entry, store.get? key = some entry → (FsPath.ofNames (base ++ key)).bytes.length < Host.pathLimit)
    (hsized : ∀ key data a, store.get? key = some (.file data a) → data.size < 1 <<< 63) :
    Twins store (store.putBelow base) (.ofNames base) base := by
  obtain ⟨a, ha⟩ := htidy.root
  have hroot : (store.putBelow base).get? base = some (.directory a.mtime) := by
    have hbelow : (store.putBelow base).get? (base ++ []) = some (.directory a.mtime) :=
      (get?_putBelow htidy).2 ⟨_, ha, rfl⟩
    rwa [List.append_nil] at hbelow
  have hphysical : (store.putBelow base).Physical base :=
    ⟨fun _ _ _ hcut => ⟨0, get?_above htidy hcut⟩, fun name hname => (hbase name hname).1,
      fun name hname => (hbase name hname).2.1⟩
  have hstands : (store.putBelow base).Stands base := ⟨_, hroot, by simp [HostEntry.kind], fun _ => rfl⟩
  have hshort : (FsPath.ofNames base).bytes.length < Host.pathLimit := by
    have hempty := hnear [] _ ha
    rwa [List.append_nil] at hempty
  have hrooted := Host.rooted_ofNames hphysical hstands (fun name hname => (hbase name hname).2.2) hshort
  refine ⟨htidy, putBelow_once htidy, hrooted, ?_, ?_, hworded, hfit, ⟨hshort, hnear⟩, hsized⟩
  · intro key entry hentry
    refine ⟨entry.put, (get?_putBelow htidy).2 ⟨entry, hentry, rfl⟩, ?_⟩
    cases entry with
    | file data a => exact .file data a a.mtime
    | directory a => exact .directory a a.mtime
  · intro key hnone
    refine Option.eq_none_iff_forall_ne_some.2 fun other hother => ?_
    obtain ⟨entry, hentry, -⟩ := (get?_putBelow htidy).1 hother
    rw [hnone] at hentry
    cases hentry

end Put

end MountSpace

/-
Reading in chunks. A filesystem holds a file if it tells that there is one and every read brings some of its bytes from
where it was asked for, as many as it likes but at least one while there are any (`HoldsFile`). So a loop of reads ends
with all that was left, at the end of the file or where it began if that was further on (`readOn_chunks`), whichever
lengths the reads had. A namespace in which such a file is mounted holds it as well, since it answers a read with one read
(`HoldsFile.nested`), so the number of namespaces in between does not matter (`Relays`).

Positions are words. A read moves an open file to the end of what it has brought, which is not past the end of the file,
so no position is ever moved past the limit, wherever the file has been put before (`exact_after`). A whole file is read
into memory, so it is one that memory can be reserved for, and so is the size that the filesystem tells of it.

Main result: `reading_exact`.
-/
import MountSpace.Proofs.Memory.Store
import MountSpace.Proofs.Space.Channels
import MountSpace.Proofs.World.Nested

namespace MountSpace

/-- the lengths asked of a read are below this -/
def sizeLimit : Nat := 1 <<< 32

/-- some of the content from an offset on: at most so much, and not nothing if there is something -/
structure IsChunk (content : ByteArray) (offset size : Nat) (chunk : ByteArray) : Prop where
  slice : chunk = content.extract offset (offset + chunk.size)
  atMost : chunk.size ≤ size
  some : offset < content.size → 0 < size → 0 < chunk.size

/-- a filesystem with a file at the path: every read of it brings a chunk of the content -/
structure Filesystem.HoldsFile (fs : Filesystem) (path : FsPath) (content : ByteArray) : Prop where
  /-- memory can be reserved for the file -/
  bounded : content.size < reserveLimit
  told : ∃ attributes, fs.getattr path = .ok attributes ∧ attributes.kind ≠ .directory ∧ attributes.size < reserveLimit
  read : ∀ offset size, offset < positionLimit → size < sizeLimit →
    ∃ chunk, fs.read path offset size = .ok chunk ∧ IsChunk content offset size chunk

/-- a filesystem that holds the file, or a namespace with the file behind a path of its own -/
inductive Filesystem.Relays (content : ByteArray) : Filesystem → FsPath → Prop where
  | held {fs : Filesystem} {path : FsPath} (holds : fs.HoldsFile path content) : Relays content fs path
  | nested {ns : Namespace} {ext : External} {path : FsPath} {own : AbsolutePath} {name : String} {at_ : ExternalPath}
      (given : ns.ofFsPath path = .ok own) (leads : ns.place ext own = .ok (.real name at_))
      (behind : Relays content (ext at_.fs) at_.path) : Relays content (ns.filesystem ext) path

/-! ## Chunks -/

section Chunks

variable {content chunk : ByteArray} {offset size : Nat}

/-- a chunk ends in the file, or is empty -/
theorem IsChunk.inside (h : IsChunk content offset size chunk) : offset + chunk.size ≤ max offset content.size := by
  have hsize := congrArg ByteArray.size h.slice
  rw [ByteArray.size_extract] at hsize
  omega

theorem IsChunk.below (h : IsChunk content offset size chunk) (hbounded : content.size < positionLimit)
    (hoffset : offset < positionLimit) : offset + chunk.size < positionLimit :=
  Nat.lt_of_le_of_lt h.inside (Nat.max_lt.2 ⟨hoffset, hbounded⟩)

/-- what stands between an offset and a length from it, cut off at the end of the file -/
theorem isChunk_cut (content : ByteArray) (offset size : Nat) : IsChunk content offset size
    (content.extract (min offset content.size) (min (offset + size) content.size)) := by
  have hsize : (content.extract (min offset content.size) (min (offset + size) content.size)).size =
      min (offset + size) content.size - min offset content.size := by
    rw [ByteArray.size_extract]
    omega
  refine ⟨?_, by omega, by omega⟩
  rw [hsize]
  by_cases hoffset : offset ≤ content.size
  · rw [Nat.min_eq_left hoffset]
    congr 1
    omega
  · have hleft : content.extract (min offset content.size) (min (offset + size) content.size) = .empty :=
      ByteArray.extract_eq_empty_iff.2 (by omega)
    rw [hleft]
    exact (ByteArray.extract_eq_empty_iff.2 (by omega)).symm

/-- a chunk of a shorter read -/
theorem IsChunk.shorter {less : Nat} (h : IsChunk content offset less chunk) (hle : less ≤ size)
    (hsome : 0 < size → 0 < less) : IsChunk content offset size chunk :=
  ⟨h.slice, h.atMost.trans hle, fun hoffset hsize => h.some hoffset (hsome hsize)⟩

/-- **Chunk after chunk is the rest of the file**, whatever their lengths. -/
theorem readOn_chunks {read : Nat → Except FsError ByteArray} (hbounded : content.size < positionLimit)
    (hread : ∀ position < positionLimit, ∃ chunk, read position = .ok chunk ∧ IsChunk content position readChunk chunk)
    {position : Nat} (hposition : position < positionLimit) (sofar : ByteArray) : readOn read position sofar =
      (.ok (sofar ++ content.extract position content.size), max position content.size) := by
  fun_induction readOn read position sofar with
  | case1 position sofar e hr =>
    obtain ⟨chunk, hok, -⟩ := hread position hposition
    cases hr.symm.trans hok
  | case2 position sofar chunk hr hempty =>
    obtain ⟨_, hok, hchunk⟩ := hread position hposition
    cases hr.symm.trans hok
    -- nothing comes only where nothing is left
    have hend : content.size ≤ position := by
      by_contra hleft
      have hpos := hchunk.some (Nat.lt_of_not_le hleft) (by decide)
      omega
    have hrest : content.extract position content.size = .empty := ByteArray.extract_eq_empty_iff.2 (by omega)
    rw [hrest, ByteArray.append_empty, Nat.max_eq_left hend]
  | case3 position sofar chunk hr hmore hlimit ih =>
    obtain ⟨_, hok, hchunk⟩ := hread position hposition
    cases hr.symm.trans hok
    have hinside := hchunk.inside
    have hend : position + chunk.size ≤ content.size := by omega
    have hjoin : chunk ++ content.extract (position + chunk.size) content.size =
        content.extract position content.size :=
      calc chunk ++ content.extract (position + chunk.size) content.size
        _ = content.extract position (position + chunk.size) ++
            content.extract (position + chunk.size) content.size := by rw [← hchunk.slice]
        _ = content.extract (min position (position + chunk.size)) (max (position + chunk.size) content.size) :=
          ByteArray.extract_append_extract
        _ = content.extract position content.size := by rw [Nat.min_eq_left (by omega), Nat.max_eq_right hend]
    rw [ih hlimit, ByteArray.append_assoc, hjoin]
    congr 1
    omega
  | case4 position sofar chunk hr hmore hlimit =>
    obtain ⟨_, hok, hchunk⟩ := hread position hposition
    cases hr.symm.trans hok
    exact absurd (hchunk.below hbounded hposition) hlimit

end Chunks

/-! ## Filesystems with a file -/

namespace Filesystem

variable {fs : Filesystem} {path : FsPath} {content : ByteArray}

/-- a position reaches the end of the file -/
theorem HoldsFile.reached (h : fs.HoldsFile path content) : content.size < positionLimit :=
  h.bounded.trans (by decide)

theorem HoldsFile.chunks (h : fs.HoldsFile path content) : ∀ position < positionLimit,
    ∃ chunk, fs.read path position readChunk = .ok chunk ∧ IsChunk content position readChunk chunk :=
  fun position hposition => h.read position readChunk hposition (by decide)

theorem HoldsFile.readAll (h : fs.HoldsFile path content) : fs.readAll path = .ok content := by
  obtain ⟨attributes, ha, -, hsize⟩ := h.told
  rw [Filesystem.readAll, ha]
  simp only [if_neg (Nat.not_le.2 hsize), readOn_chunks h.reached h.chunks (show 0 < positionLimit by decide)]
  rw [ByteArray.empty_append, ByteArray.extract_zero_size]

/-- reads cut short bring chunks of the file still -/
theorem HoldsFile.withFaults (h : fs.HoldsFile path content) {f : Faults} (hgetattr : f.error? .getattr path = none)
    (hread : f.error? .read path = none) (hsome : f.maxRead ≠ some 0) : (fs.withFaults f).HoldsFile path content where
  bounded := h.bounded
  told := by
    simp only [Filesystem.withFaults, Faults.guard, hgetattr]
    exact h.told
  read := by
    intro offset size hoffset hsize
    simp only [Filesystem.withFaults, Faults.guard, hread]
    cases hmost : f.maxRead with
    | none => exact h.read offset size hoffset hsize
    | some most =>
      have hpos : most ≠ 0 := fun hzero => hsome (hzero ▸ hmost)
      obtain ⟨chunk, hok, hchunk⟩ := h.read offset (min size most) hoffset (by omega)
      exact ⟨chunk, hok, hchunk.shorter (Nat.min_le_left _ _) (by omega)⟩

end Filesystem

/-- a file of a store -/
theorem MemoryStore.holdsFile {store : MemoryStore} (htidy : store.Tidy) {path : FsPath} {content : ByteArray}
    {attributes : Attributes} (hentry : store.get? (normalize path) = some (.file content attributes))
    (hbounded : content.size < reserveLimit) : store.filesystem.HoldsFile path content where
  bounded := hbounded
  told := by
    obtain ⟨hkind, hsize⟩ := htidy.regular _ _ hentry
    refine ⟨attributes, ?_, ?_, hsize ▸ hbounded⟩
    · simp only [filesystem, getattr, hentry]
      rfl
    · rw [hkind]
      decide
  read := by
    intro offset size _ _
    refine ⟨_, ?_, isChunk_cut content offset size⟩
    simp only [filesystem, MemoryStore.read, hentry]

section Nested

variable {ns : Namespace} {ext : External} {own : AbsolutePath} {name : String} {at_ : ExternalPath}
  {content : ByteArray} (hplace : ns.place ext own = .ok (.real name at_))
  (h : (ext at_.fs).HoldsFile at_.path content)
include hplace h

/-- a file behind a path opens at its beginning -/
theorem Namespace.openRead_file : ∃ size < reserveLimit, ns.openRead ext own .reading = .ok ⟨at_, size, 0⟩ := by
  obtain ⟨attributes, ha, hkind, hsize⟩ := h.told
  exact ⟨attributes.size, hsize, by rw [openRead_real hplace ha, if_neg hkind]⟩

theorem Namespace.readAll_file : ns.readAll ext own = .ok content := by
  obtain ⟨size, hsize, hopen⟩ := openRead_file hplace h
  rw [readAll_of_open hopen, if_neg (Nat.not_le.2 hsize)]
  rw [readOn_chunks h.reached h.chunks (show 0 < positionLimit by decide)]
  rw [ByteArray.empty_append, ByteArray.extract_zero_size]

/-- a namespace holds the files behind its paths -/
theorem Filesystem.HoldsFile.nested {path : FsPath} (given : ns.ofFsPath path = .ok own) :
    (ns.filesystem ext).HoldsFile path content where
  bounded := h.bounded
  told := by
    obtain ⟨attributes, ha, htold⟩ := h.told
    exact ⟨attributes, by simp only [Namespace.filesystem, given, Namespace.readAttributes_real hplace, ha], htold⟩
  read := by
    intro offset size hoffset hsize
    obtain ⟨length, -, hopen⟩ := Namespace.openRead_file hplace h
    obtain ⟨chunk, hok, hchunk⟩ := h.read offset size hoffset hsize
    exact ⟨chunk, by simp only [Namespace.filesystem, given, hopen, Channel.seek, Channel.read, hok], hchunk⟩

end Nested

/-- **However many namespaces a file is seen through, it is held there.** -/
theorem Filesystem.Relays.holds {content : ByteArray} {fs : Filesystem} {path : FsPath} (h : Relays content fs path) :
    fs.HoldsFile path content := by
  induction h with
  | held holds => exact holds
  | nested given leads _ ih => exact ih.nested leads given

/-! ## Open files -/

/-- a position that is a word, a length that is a half word -/
def ChannelAct.Fits : ChannelAct → Prop
  | seek position => position < positionLimit
  | read size => size < sizeLimit
  | readToEnd => True

namespace Channel

/-- the open file after something is done with it, with the answers that the filesystems give then -/
def act (c : Channel) : External × ChannelAct → Channel
  | (_, .seek position) => c.seek position
  | (ext, .read size) => (c.read ext size).2
  | (ext, .readToEnd) => (c.readToEnd ext).2

/-- the open file after some acts -/
def after (c : Channel) (acts : List (External × ChannelAct)) : Channel := acts.foldl act c

/-- what the open file does next: a read brings a chunk from the position on and moves the position by its length, short
of the limit; reading to the end brings all that is left and leaves the position at the end, or where it was beyond -/
structure Exact (ext : External) (content : ByteArray) (c : Channel) : Prop where
  position : c.position < positionLimit
  read : ∀ size < sizeLimit, ∃ chunk, IsChunk content c.position size chunk ∧
    c.position + chunk.size < positionLimit ∧ c.read ext size = (.ok chunk, c.seek (c.position + chunk.size))
  readToEnd : c.readToEnd ext =
    (.ok (content.extract c.position content.size), c.seek (max c.position content.size))

section Exact

variable {c : Channel} {content : ByteArray}

theorem exact_of_holds {ext : External} (h : (ext c.source.fs).HoldsFile c.source.path content)
    (hsize : c.size < reserveLimit) (hposition : c.position < positionLimit) : c.Exact ext content where
  position := hposition
  read := by
    intro size hsize
    obtain ⟨chunk, hok, hchunk⟩ := h.read c.position size hposition hsize
    exact ⟨chunk, hchunk, hchunk.below h.reached hposition, by simp only [Channel.read, hok, seek]⟩
  readToEnd := by
    have hroom : ¬reserveLimit ≤ c.size - c.position := Nat.not_le.2 ((Nat.sub_le _ _).trans_lt hsize)
    rw [Channel.readToEnd, if_neg hroom]
    simp only [readOn_chunks h.reached h.chunks hposition, ByteArray.empty_append, seek]

/-- an act leaves the file open where positions reach -/
theorem act_inside {a : External × ChannelAct} (hfits : a.2.Fits)
    (h : (a.1 c.source.fs).HoldsFile c.source.path content) (hsize : c.size < reserveLimit)
    (hposition : c.position < positionLimit) :
    (c.act a).source = c.source ∧ (c.act a).size < reserveLimit ∧ (c.act a).position < positionLimit := by
  obtain ⟨ext, act⟩ := a
  have hexact := exact_of_holds h hsize hposition
  cases act with
  | seek position => exact ⟨rfl, hsize, hfits⟩
  | read size =>
    obtain ⟨chunk, -, hbelow, hread⟩ := hexact.read size hfits
    rw [Channel.act, hread]
    exact ⟨rfl, hsize, hbelow⟩
  | readToEnd =>
    rw [Channel.act, hexact.readToEnd]
    exact ⟨rfl, hsize, Nat.max_lt.2 ⟨hposition, h.reached⟩⟩

/-- **An open file stays exact**, whatever has been done with it. -/
theorem exact_after {acts : List (External × ChannelAct)} (hacts : ∀ a ∈ acts, a.2.Fits ∧
      (a.1 c.source.fs).HoldsFile c.source.path content) (hsize : c.size < reserveLimit)
    (hposition : c.position < positionLimit) {later : External}
    (hlater : (later c.source.fs).HoldsFile c.source.path content) : (c.after acts).Exact later content := by
  induction acts generalizing c with
  | nil => exact exact_of_holds hlater hsize hposition
  | cons a rest ih =>
    rw [List.forall_mem_cons] at hacts
    obtain ⟨hsource, hsized, hnext⟩ := act_inside hacts.1.1 hacts.1.2 hsize hposition
    exact ih (hsource ▸ hacts.2) hsized hnext (hsource ▸ hlater)

end Exact

end Channel

/-- the path is read exactly: it opens at the beginning of the file, and at any time after, with filesystems that cut
each read short as they like, the open file does what it should -/
structure Namespace.ReadsExactly (ns : Namespace) (ext : External) (own : AbsolutePath) (at_ : ExternalPath)
    (content : ByteArray) : Prop where
  whole : ns.readAll ext own = .ok content
  opens : ∃ size < reserveLimit, ns.openRead ext own .reading = .ok ⟨at_, size, 0⟩
  channel : ∀ size < reserveLimit, ∀ acts later, (∀ a ∈ acts, a.2.Fits ∧ Filesystem.Relays content (a.1 at_.fs) at_.path) →
    Filesystem.Relays content (later at_.fs) at_.path → (Channel.after ⟨at_, size, 0⟩ acts).Exact later content

/-- **Reading in chunks is exact.** A file of a store in memory is read in chunks, and so is every file that a filesystem
hands out in pieces of its choice, through any number of namespaces, if the size told of it is one that there can be room
for. The whole of it is then read as it is, and an open file, put anywhere and read in any way, tells what stands at its
position and never moves past the last position. -/
theorem reading_exact (content : ByteArray) :
    (∀ (store : MemoryStore) (path : FsPath) (attributes : Attributes), store.Tidy → content.size < reserveLimit →
      store.get? (MemoryStore.normalize path) = some (.file content attributes) →
        Filesystem.Relays content store.filesystem path) ∧
    ∀ (fs : Filesystem) (path : FsPath), Filesystem.Relays content fs path → fs.readAll path = .ok content ∧
      ∀ (ns : Namespace) (ext : External) (own : AbsolutePath) (name : String) (at_ : ExternalPath),
        ns.place ext own = .ok (.real name at_) → ext at_.fs = fs → at_.path = path →
          ns.ReadsExactly ext own at_ content := by
  refine ⟨fun store path attributes htidy hbounded hentry => .held (MemoryStore.holdsFile htidy hentry hbounded), ?_⟩
  intro fs path hrelays
  refine ⟨hrelays.holds.readAll, ?_⟩
  rintro ns ext own name at_ hplace rfl rfl
  refine ⟨ns.readAll_file hplace hrelays.holds, ns.openRead_file hplace hrelays.holds, ?_⟩
  intro size hsize acts later hacts hlater
  have hheld : ∀ a ∈ acts, a.2.Fits ∧ (a.1 at_.fs).HoldsFile at_.path content :=
    fun a ha => ⟨(hacts a ha).1, (hacts a ha).2.holds⟩
  exact Channel.exact_after hheld hsize (show 0 < positionLimit by decide) hlater.holds

/-- a volume that brings two bytes at a time, with a file of five, mounted in the second of two namespaces, which is
mounted in the first -/
def dripping : World :=
  let (fs, w) := World.twoSpaces.createFaulty (some 2)
  let w := (w.changeStore fs fun now => MemoryStore.insertFile now (.ofString "/f") ⟨#[1, 2, 3, 4, 5]⟩).2
  ((w.mount 2 ⟨⟨fs, .rootPath⟩, ⟨2, ["b"]⟩⟩).2.mount 1 World.firstRequest).2

/-- the first namespace reads the file exactly -/
theorem dripping_read : ∃ outer, dripping.namespace? 1 = some outer ∧
    Filesystem.Relays ⟨#[1, 2, 3, 4, 5]⟩ (dripping.external (.space 2)) (.ofString "/b/f") ∧
    outer.ReadsExactly dripping.external ⟨1, ["a", "f"]⟩ ⟨.space 2, .ofString "/b/f"⟩ ⟨#[1, 2, 3, 4, 5]⟩ := by
  let outer := (dripping.namespace? 1).get rfl
  let inner := (dripping.namespace? 2).get rfl
  let store : MemoryStore := ((MemoryStore.empty 6).insertFile 7 (.ofString "/f") ⟨#[1, 2, 3, 4, 5]⟩).2
  have htidy : store.Tidy := MemoryStore.insertFile_tidy (MemoryStore.tidy_empty 6) 7 _ _
  have hfile : store.get? (MemoryStore.normalize (.ofString "/f")) =
      some (.file ⟨#[1, 2, 3, 4, 5]⟩ (.file 5 7)) := by rfl
  have hdrops : (store.filesystem.withFaults { maxRead := some 2 }).HoldsFile (.ofString "/f") ⟨#[1, 2, 3, 4, 5]⟩ :=
    (MemoryStore.holdsFile htidy hfile (by decide)).withFaults rfl rfl (by decide)
  have hplace : inner.place (dripping.answers 1001) ⟨2, ["b", "f"]⟩ =
      .ok (.real "f" ⟨.volume 0, .ofString "/f"⟩) := by rfl
  have hinner : Filesystem.Relays ⟨#[1, 2, 3, 4, 5]⟩ (dripping.external (.space 2)) (.ofString "/b/f") :=
    .nested (show inner.ofFsPath (.ofString "/b/f") = .ok ⟨2, ["b", "f"]⟩ by rfl) hplace (.held hdrops)
  refine ⟨outer, rfl, hinner, ?_⟩
  exact ((reading_exact _).2 _ _ hinner).2 outer dripping.external _ "f" _ (by rfl) rfl rfl

end MountSpace

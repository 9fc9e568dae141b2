/-
What the view of a host directory shows. Every answer is about one object, the one at the physical path that the path
asked for leads to, and that path is at or below the root of the view (`Shows`): its attributes (`viewGetattr_eq_ok`),
the names in it (`viewReaddir_eq_ok`) and, read on from the beginning, all of its bytes (`readOn_viewRead`).
-/
import MountSpace.Proofs.Host.Physical

namespace MountSpace

/-! ## Paths below the root of a view -/

namespace FsPath

/-- a path that names something is not empty without its root -/
theorem withoutRoot_ne_nil {p : FsPath} {name : List UInt8} (h : .normal name ∈ p.components) :
    p.withoutRoot.bytes ≠ [] := by
  have hempty : ∀ q : FsPath, q.bytes = [] → q.components = [] := by
    rintro ⟨_⟩ rfl
    rfl
  rw [withoutRoot_eq_stripPrefix]
  intro hnil
  cases hrest : p.stripPrefix? rootPath with
  | none =>
    rw [hrest] at hnil
    rw [hempty p hnil] at h
    cases h
  | some rest =>
    rw [hrest] at hnil
    rw [components_stripPrefix hrest, hempty rest hnil, show rootPath.components = [.root] from rfl] at h
    cases List.mem_singleton.1 h

theorem withoutRoot_joinName_ne_nil (path : FsPath) {name : String} (hname : nameFault? name = none) :
    (path.joinName name).withoutRoot.bytes ≠ [] := by
  have hlast : .normal (Text.encode name) ∈ (path.joinName name).components := by
    rw [components_joinName path hname]
    simp
  exact withoutRoot_ne_nil hlast

end FsPath

namespace Host

/-- the physical path of what a path of the view stands for -/
def keyIn (host : Host) (root path : FsPath) : Except SystemError HostKey :=
  host.canonical (root.join path.withoutRoot)

/-- the path of the view leads to this physical path, at or below the root -/
structure Shows (host : Host) (root path : FsPath) (key : HostKey) : Prop where
  leads : host.keyIn root path = .ok key
  inside : (FsPath.ofNames key).startsWith root = true

section View

variable {host : Host} {root path : FsPath}

theorem viewPath_eq (hpath : path.withoutRoot.bytes ≠ []) : host.viewPath root path =
    match host.keyIn root path with
    | .error e => .error (.system e)
    | .ok key =>
      if (FsPath.ofNames key).startsWith root then .ok (.ofNames key)
      else .error (.escapesRoot ((FsPath.ofNames key).text ++ " is not under " ++ root.text)) :=
  if_neg hpath

theorem viewPath_eq_ok (hpath : path.withoutRoot.bytes ≠ []) {physical : FsPath}
    (h : host.viewPath root path = .ok physical) : ∃ key, host.Shows root path key ∧ physical = .ofNames key := by
  rw [viewPath_eq hpath] at h
  cases hk : host.keyIn root path with
  | error e =>
    rw [hk] at h
    cases h
  | ok key =>
    simp only [hk] at h
    split at h
    · next hin =>
      cases h
      exact ⟨key, ⟨hk, hin⟩, rfl⟩
    · cases h

/-- what leads outside the root is refused as an escape -/
theorem viewPath_outside (hpath : path.withoutRoot.bytes ≠ []) {key : HostKey} (hk : host.keyIn root path = .ok key)
    (hout : (FsPath.ofNames key).startsWith root = false) :
    ∃ text, host.viewPath root path = .error (.escapesRoot text) := by
  refine ⟨(FsPath.ofNames key).text ++ " is not under " ++ root.text, ?_⟩
  simp only [viewPath_eq hpath, hk, hout, Bool.false_eq_true, if_false]

theorem stat_eq_ok {entry : HostEntry} :
    host.stat path = .ok entry ↔ ∃ key, host.locate path = .ok key ∧ host.get? key = some entry := by
  unfold stat
  cases host.locate path with
  | error e => simp
  | ok key =>
    cases hg : host.get? key with
    | none => simp [hg]
    | some found => simp [hg]

/-- what leads inside the root is told of, or fails in the words of the host -/
theorem viewGetattr_inside (hpath : path.withoutRoot.bytes ≠ []) {key : HostKey} (h : host.Shows root path key) :
    (∃ attributes, host.viewGetattr root path = .ok attributes) ∨
      ∃ e, host.viewGetattr root path = .error (.system e) := by
  have hv : host.viewPath root path = .ok (.ofNames key) := by
    simp only [viewPath_eq hpath, h.leads, h.inside, if_true]
  simp only [viewGetattr, viewEntry, hv]
  cases host.stat (FsPath.ofNames key) with
  | ok entry => exact .inl ⟨entry.attributes, rfl⟩
  | error e => exact .inr ⟨e, rfl⟩

/-- the host, asked for what the view makes of a path, comes to this physical path -/
def Asked (host : Host) (root path : FsPath) (key : HostKey) : Prop :=
  ∃ physical, host.viewPath root path = .ok physical ∧ host.locate physical = .ok key

theorem asked_of_viewEntry {entry : HostEntry} (h : host.viewEntry root path = .ok entry) :
    ∃ key, host.Asked root path key ∧ host.get? key = some entry := by
  unfold viewEntry at h
  cases hv : host.viewPath root path with
  | error e =>
    rw [hv] at h
    cases h
  | ok physical =>
    simp only [hv] at h
    cases hs : host.stat physical with
    | error e =>
      rw [hs] at h
      cases h
    | ok found =>
      rw [hs] at h
      cases h
      obtain ⟨key, hl, hg⟩ := stat_eq_ok.1 hs
      exact ⟨key, ⟨physical, hv, hl⟩, hg⟩

theorem asked_of_viewGetattr {attributes : Attributes} (h : host.viewGetattr root path = .ok attributes) :
    ∃ key entry, host.Asked root path key ∧ host.get? key = some entry ∧ attributes = entry.attributes := by
  unfold viewGetattr at h
  cases he : host.viewEntry root path with
  | error e =>
    rw [he] at h
    cases h
  | ok entry =>
    rw [he] at h
    cases h
    obtain ⟨key, hasked, hg⟩ := asked_of_viewEntry he
    exact ⟨key, entry, hasked, hg, rfl⟩

theorem asked_of_viewReaddir {entries : List Entry} (h : host.viewReaddir root path = .ok entries) :
    ∃ key mtime, host.Asked root path key ∧ host.get? key = some (.directory mtime) ∧ entries = host.list key := by
  unfold viewReaddir at h
  cases hv : host.viewPath root path with
  | error e =>
    rw [hv] at h
    cases h
  | ok physical =>
    simp only [hv] at h
    cases hl : host.locate physical with
    | error e =>
      rw [hl] at h
      cases h
    | ok key =>
      simp only [hl] at h
      split at h
      · next mtime hg =>
        cases h
        exact ⟨key, mtime, ⟨physical, hv, hl⟩, hg, rfl⟩
      · cases h

theorem asked_of_viewRead {offset size : Nat} {chunk : ByteArray}
    (h : host.viewRead root path offset size = .ok chunk) :
    ∃ key data mtime, host.Asked root path key ∧ host.get? key = some (.file data mtime) ∧
      chunk = data.extract (min offset data.size) (min (offset + size) data.size) := by
  unfold viewRead at h
  cases he : host.viewEntry root path with
  | error e =>
    rw [he] at h
    cases h
  | ok entry =>
    obtain ⟨key, hasked, hg⟩ := asked_of_viewEntry he
    cases entry with
    | file data mtime =>
      simp only [he] at h
      split at h
      · cases h
      · cases h
        exact ⟨key, data, mtime, hasked, hg, rfl⟩
    | directory mtime =>
      rw [he] at h
      cases h
    | link target mtime =>
      rw [he] at h
      cases h

section Shown

variable (hcwd : host.CwdPhysical) (hpath : path.withoutRoot.bytes ≠ [])
include hcwd hpath

/-- the object the host has at the path made physical is the one the view shows -/
theorem shows_of_asked {key : HostKey} (h : host.Asked root path key) : host.Shows root path key := by
  obtain ⟨physical, hv, hl⟩ := h
  obtain ⟨there, hshows, rfl⟩ := viewPath_eq_ok hpath hv
  obtain ⟨hphysical, hstands⟩ := canonical_physical hcwd hshows.leads
  rw [locate_ofNames hphysical hstands hl]
  exact hshows

theorem viewEntry_eq_ok {entry : HostEntry} (h : host.viewEntry root path = .ok entry) :
    ∃ key, host.Shows root path key ∧ host.get? key = some entry := by
  obtain ⟨key, hasked, hg⟩ := asked_of_viewEntry h
  exact ⟨key, shows_of_asked hcwd hpath hasked, hg⟩

theorem viewGetattr_eq_ok {attributes : Attributes} (h : host.viewGetattr root path = .ok attributes) :
    ∃ key entry, host.Shows root path key ∧ host.get? key = some entry ∧ attributes = entry.attributes := by
  obtain ⟨key, entry, hasked, hg, hattributes⟩ := asked_of_viewGetattr h
  exact ⟨key, entry, shows_of_asked hcwd hpath hasked, hg, hattributes⟩

theorem viewReaddir_eq_ok {entries : List Entry} (h : host.viewReaddir root path = .ok entries) :
    ∃ key mtime, host.Shows root path key ∧ host.get? key = some (.directory mtime) ∧ entries = host.list key := by
  obtain ⟨key, mtime, hasked, hg, hentries⟩ := asked_of_viewReaddir h
  exact ⟨key, mtime, shows_of_asked hcwd hpath hasked, hg, hentries⟩

end Shown

end View

end Host

/-! ## Reading to the end -/

/-- what one read brings and nothing follows is all there is -/
theorem readOn_once {read : Nat → Except FsError ByteArray} {chunk : ByteArray} (hfirst : read 0 = .ok chunk)
    (hnext : read chunk.size = .ok .empty) (hsome : chunk.size ≠ 0) (hlimit : chunk.size < positionLimit) :
    (readOn read 0 .empty).1 = .ok chunk := by
  rw [readOn, hfirst]
  simp only
  rw [if_neg hsome, if_pos (by omega), readOn, Nat.zero_add, hnext]
  simp

/-- slices of one file, read on to an empty one, are the rest of the file -/
theorem readOn_slices {read : Nat → Except FsError ByteArray} {data : ByteArray} {e : FsError}
    (hread : ∀ position, read position = if 1 <<< 63 ≤ position then .error e
      else .ok (data.extract (min position data.size) (min (position + readChunk) data.size)))
    {position : Nat} (hposition : position ≤ data.size) {sofar : ByteArray} (hsofar : sofar = data.extract 0 position)
    {whole : ByteArray} (h : (readOn read position sofar).1 = .ok whole) : whole = data := by
  -- a chunk is what follows, at most one chunk's length of it
  have hchunk : ∀ {position chunk}, position ≤ data.size → read position = .ok chunk → position < 1 <<< 63 ∧
      chunk = data.extract position (min (position + readChunk) data.size) ∧
      chunk.size = min (position + readChunk) data.size - position := by
    intro position chunk hle hr
    rw [hread, Nat.min_eq_left hle] at hr
    split_ifs at hr with hlimit
    cases hr
    refine ⟨Nat.lt_of_not_le hlimit, rfl, ?_⟩
    rw [ByteArray.size_extract]
    omega
  fun_induction readOn read position sofar with
  | case1 position sofar e' hr => cases h
  | case2 position sofar chunk hr hempty =>
    cases h
    obtain ⟨-, -, hsize⟩ := hchunk hposition hr
    have hend : position = data.size := by
      simp only [readChunk] at hsize
      omega
    rw [hsofar, hend, ByteArray.extract_zero_size]
  | case3 position sofar chunk hr hmore hlimit ih =>
    obtain ⟨-, hslice, hsize⟩ := hchunk hposition hr
    refine ih (by omega) ?_ h
    rw [hsofar, hslice, ByteArray.extract_append_extract, ByteArray.size_extract]
    congr 1
    omega
  | case4 position sofar chunk hr hmore hlimit =>
    obtain ⟨hlow, -, hsize⟩ := hchunk hposition hr
    simp only [readChunk, positionLimit] at hsize hlimit
    omega

namespace Host

/-- a file of the view, read to the end, is the content of the object the view shows -/
theorem readOn_viewRead {host : Host} {root path : FsPath} (hcwd : host.CwdPhysical)
    (hpath : path.withoutRoot.bytes ≠ []) {whole : ByteArray}
    (h : (readOn (fun position => host.viewRead root path position readChunk) 0 .empty).1 = .ok whole) :
    ∃ key mtime, host.Shows root path key ∧ host.get? key = some (.file whole mtime) := by
  have hfirst : ∀ e, host.viewRead root path 0 readChunk ≠ .error e := by
    intro e he
    rw [readOn, he] at h
    cases h
  cases hv : host.viewEntry root path with
  | error e => exact absurd (by rw [viewRead, hv]) (hfirst e)
  | ok entry =>
    cases entry with
    | file data mtime =>
      obtain ⟨key, hshows, hg⟩ := viewEntry_eq_ok hcwd hpath hv
      have hread : ∀ position, host.viewRead root path position readChunk = if 1 <<< 63 ≤ position then
          .error (.system .invalidArgument)
          else .ok (data.extract (min position data.size) (min (position + readChunk) data.size)) := by
        intro position
        rw [viewRead, hv]
      have hwhole : whole = data := readOn_slices hread (Nat.zero_le _) (by simp) h
      exact ⟨key, mtime, hshows, by rw [hg, hwhole]⟩
    | directory mtime => exact absurd (by rw [viewRead, hv]) (hfirst _)
    | link target mtime => exact absurd (by rw [viewRead, hv]) (hfirst _)

end Host

end MountSpace

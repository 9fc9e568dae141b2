/-
Paths given to a namespace as a filesystem: bytes, read as names. What can be read is a path of the namespace whose names
are all valid (`ofFsPath_eq_ok`), and these are the components of the given path but for its root
(`ofFsPath_eq_ok_iff`). A valid name joined to a path is one name more (`ofFsPath_joinName`, `ofFsPath_foldl`), and the
text of a path of the namespace is read as that path (`ofFsPath_text`).

Main result: `reads_filesystem_paths`.
-/
import MountSpace.Proofs.Path.Contained
import MountSpace.Space.Channel

namespace MountSpace

theorem Text.toByteArray_encode (s : String) : (Text.encode s).toByteArray = s.toByteArray := by
  unfold Text.encode
  apply ByteArray.ext
  rw [List.data_toByteArray]

theorem Text.decode?_encode (s : String) : Text.decode? (Text.encode s) = some s := by
  rw [Text.decode?, Text.toByteArray_encode, String.fromUTF8?, dif_pos s.isValidUTF8]
  rfl

/-- the bytes that can be read as a text are those of the text -/
theorem Text.decode?_eq_some {bytes : List UInt8} {s : String} :
    Text.decode? bytes = some s ↔ bytes = Text.encode s := by
  constructor
  · intro h
    unfold Text.decode? String.fromUTF8? at h
    split at h
    · cases h
      show bytes = bytes.toByteArray.data.toList
      rw [List.data_toByteArray]
    · cases h
  · rintro rfl
    exact Text.decode?_encode s

theorem Text.encode_append (a b : String) : Text.encode (a ++ b) = Text.encode a ++ Text.encode b := by
  simp only [Text.encode_eq_flatMap, String.toList_append, List.flatMap_append]

theorem Text.encode_joinNames (names : List String) :
    Text.encode (joinNames names) = Text.join FsPath.slash (names.map Text.encode) := by
  induction names with
  | nil => rfl
  | cons name rest ih =>
    cases rest with
    | nil => simp [joinNames, Text.join]
    | cons next more =>
      have hcons : joinNames (name :: next :: more) = name ++ "/" ++ joinNames (next :: more) := by
        apply String.toList_inj.1
        simp [joinNames, Text.join]
      rw [hcons, Text.encode_append, Text.encode_append, ih]
      simp [Text.join, show Text.encode "/" = [FsPath.slash] from rfl]

/-- the text of a path is the rooted path of the bytes of its names -/
theorem AbsolutePath.ofString_text (path : AbsolutePath) :
    FsPath.ofString path.text = FsPath.ofNames (path.names.map Text.encode) := by
  rw [FsPath.ofString, AbsolutePath.text, Text.encode_append, Text.encode_joinNames]
  rfl

namespace Namespace

/-- the names of components are what all but the root say, if they say names -/
theorem namesOf_eq_ok {p : FsPath} {cs : List FsComponent} {names : List String} : namesOf p cs = .ok names ↔
    cs.filter (· ≠ .root) = names.map fun name => .normal (Text.encode name) := by
  induction cs generalizing names with
  | nil => cases names <;> simp [namesOf]
  | cons c rest ih =>
    cases c with
    | root => simpa [namesOf] using ih
    | here => cases names <;> simp [namesOf]
    | up => cases names <;> simp [namesOf]
    | normal bytes =>
      rw [List.filter_cons_of_pos (by simp), namesOf]
      constructor
      · intro h
        cases hd : Text.decode? bytes with
        | none =>
          rw [hd] at h
          cases h
        | some first =>
          rw [hd] at h
          cases hr : namesOf p rest with
          | error e =>
            simp only [hr] at h
            cases h
          | ok more =>
            simp only [hr] at h
            cases h
            rw [List.map_cons, ih.1 hr, Text.decode?_eq_some.1 hd]
      · intro h
        obtain ⟨first, more, rfl, hfirst, hmore⟩ := List.map_eq_cons_iff.1 h.symm
        rw [← FsComponent.normal.inj hfirst, Text.decode?_encode, ih.2 hmore.symm]

/-- the names of components do not depend on how their path is named in refusals, and one more component is one more
name -/
theorem namesOf_append {p : FsPath} (p' : FsPath) {cs : List FsComponent} {name : String} {names : List String}
    (h : namesOf p (cs ++ [.normal (Text.encode name)]) = .ok names) :
    ∃ front, namesOf p' cs = .ok front ∧ names = front ++ [name] := by
  rw [namesOf_eq_ok, List.filter_append] at h
  obtain ⟨front, back, rfl, hfront, hback⟩ := List.map_eq_append_iff.1 h.symm
  refine ⟨front, namesOf_eq_ok.2 hfront.symm, ?_⟩
  have hinj : Function.Injective fun name => FsComponent.normal (Text.encode name) :=
    fun a b hab => Text.encode_injective (FsComponent.normal.inj hab)
  have hone : back = [name] := List.map_injective_iff.2 hinj hback
  rw [hone]

theorem ofFsPath_eq_ok {ns : Namespace} {p : FsPath} {path : AbsolutePath} :
    ns.ofFsPath p = .ok path ↔ namesOf p p.components = .ok path.names ∧ path.owner = ns.id ∧
      ∀ n ∈ path.names, nameFault? n = none := by
  unfold ofFsPath AbsolutePath.ofNames
  cases namesOf p p.components with
  | error e => simp
  | ok names =>
    simp only [Except.ok.injEq]
    constructor
    · intro h
      cases hc : checkNames names with
      | error e => rw [hc] at h; cases h
      | ok _ =>
        rw [hc] at h
        cases h
        exact ⟨rfl, rfl, checkNames_eq_ok.1 hc⟩
    · rintro ⟨rfl, howner, hvalid⟩
      rw [checkNames_eq_ok.2 hvalid, ← howner]

/-- the path one valid name further on is the path of the same namespace one name further on -/
theorem ofFsPath_joinName {ns : Namespace} {p : FsPath} {name : String} (hname : nameFault? name = none)
    {path : AbsolutePath} (h : ns.ofFsPath (p.joinName name) = .ok path) :
    ∃ front, ns.ofFsPath p = .ok ⟨ns.id, front⟩ ∧ path.names = front ++ [name] := by
  obtain ⟨hnames, -, hvalid⟩ := ofFsPath_eq_ok.1 h
  rw [FsPath.components_joinName p hname] at hnames
  obtain ⟨front, hfront, hcut⟩ := namesOf_append p hnames
  refine ⟨front, ofFsPath_eq_ok.2 ⟨hfront, rfl, fun n hn => hvalid n ?_⟩, hcut⟩
  rw [hcut]
  exact List.mem_append_left _ hn

/-- names of components that come before one more name -/
theorem namesOf_concat {p : FsPath} (p' : FsPath) {cs : List FsComponent} {front : List String}
    (h : namesOf p cs = .ok front) (name : String) :
    namesOf p' (cs ++ [.normal (Text.encode name)]) = .ok (front ++ [name]) := by
  rw [namesOf_eq_ok, List.filter_append, namesOf_eq_ok.1 h, List.map_append]
  rfl

/-- valid names further on from a path of the namespace is the path with these names more -/
theorem ofFsPath_foldl {ns : Namespace} {p : FsPath} {path : AbsolutePath} (h : ns.ofFsPath p = .ok path)
    {names : List String} (hvalid : ∀ n ∈ names, nameFault? n = none) :
    ns.ofFsPath (names.foldl .joinName p) = .ok ⟨ns.id, path.names ++ names⟩ := by
  induction names generalizing p path with
  | nil =>
    obtain ⟨-, howner, -⟩ := ofFsPath_eq_ok.1 h
    rw [List.foldl_nil, List.append_nil, h, ← howner]
  | cons name rest ih =>
    rw [List.forall_mem_cons] at hvalid
    obtain ⟨hnames, -, hold⟩ := ofFsPath_eq_ok.1 h
    have hnext : ns.ofFsPath (p.joinName name) = .ok ⟨ns.id, path.names ++ [name]⟩ := by
      refine ofFsPath_eq_ok.2 ⟨?_, rfl, ?_⟩
      · rw [FsPath.components_joinName p hvalid.1]
        exact namesOf_concat _ hnames name
      · intro n hn
        rcases List.mem_append.1 hn with hn | hn
        · exact hold n hn
        · rw [List.mem_singleton.1 hn]
          exact hvalid.1
    rw [List.foldl_cons, ih hnext hvalid.2, List.append_assoc, List.singleton_append]

/-- **A path is read as its components say.** -/
theorem ofFsPath_eq_ok_iff {ns : Namespace} {p : FsPath} {path : AbsolutePath} : ns.ofFsPath p = .ok path ↔
    path.owner = ns.id ∧ (∀ name ∈ path.names, nameFault? name = none) ∧
      p.components.filter (· ≠ .root) = path.names.map fun name => .normal (Text.encode name) := by
  rw [ofFsPath_eq_ok, namesOf_eq_ok, and_rotate]

/-- every path of a namespace is read back from its text -/
theorem ofFsPath_text {ns : Namespace} {path : AbsolutePath} (howner : path.owner = ns.id)
    (hvalid : ∀ name ∈ path.names, nameFault? name = none) : ns.ofFsPath (.ofString path.text) = .ok path := by
  have hplain : ∀ bytes ∈ path.names.map Text.encode, PlainBytes bytes := by
    intro bytes hm
    obtain ⟨name, hname, rfl⟩ := List.mem_map.1 hm
    exact plainBytes_encode (hvalid name hname)
  refine ofFsPath_eq_ok_iff.2 ⟨howner, hvalid, ?_⟩
  rw [path.ofString_text, FsPath.components_ofNames hplain, List.filter_cons_of_neg (by simp), List.map_map]
  refine List.filter_eq_self.2 fun c hc => ?_
  obtain ⟨name, -, rfl⟩ := List.mem_map.1 hc
  rfl

/-- components that are each a root or a valid name, as names -/
theorem exists_names {cs : List FsComponent} (h : ∀ c ∈ cs, c = .root ∨
    ∃ bytes name, c = .normal bytes ∧ Text.decode? bytes = some name ∧ checkName name = .ok ()) :
    ∃ names : List String, (∀ name ∈ names, nameFault? name = none) ∧
      cs.filter (· ≠ .root) = names.map fun name => .normal (Text.encode name) := by
  induction cs with
  | nil => exact ⟨[], by simp, rfl⟩
  | cons c rest ih =>
    rw [List.forall_mem_cons] at h
    obtain ⟨names, hvalid, hnames⟩ := ih h.2
    rcases h.1 with rfl | ⟨bytes, name, rfl, hbytes, hname⟩
    · exact ⟨names, hvalid, hnames⟩
    · refine ⟨name :: names, ?_, ?_⟩
      · exact List.forall_mem_cons.2 ⟨checkName_ok_iff.1 hname, hvalid⟩
      · rw [List.filter_cons_of_pos (by simp), hnames, Text.decode?_eq_some.1 hbytes]
        rfl

/-- how a namespace reads the paths of filesystems -/
structure ReadsFsPaths (ns : Namespace) : Prop where
  /-- a path is accepted exactly if all its components but a root are names in well-formed text -/
  accepted : ∀ p : FsPath, (∃ path, ns.ofFsPath p = .ok path) ↔ ∀ c ∈ p.components, c = .root ∨
    ∃ bytes name, c = .normal bytes ∧ Text.decode? bytes = some name ∧ checkName name = .ok ()
  /-- it is read as these names, in their order -/
  names : ∀ p path, ns.ofFsPath p = .ok path → path.owner = ns.id ∧
    p.components.filter (· ≠ .root) = path.names.map fun name => .normal (Text.encode name)
  /-- the text of a path of the namespace is read as that path -/
  displayed : ∀ path : AbsolutePath, path.owner = ns.id → checkNames path.names = .ok () →
    ns.ofFsPath (.ofString path.text) = .ok path
  /-- a valid name joined is one name more, however the path before it is written -/
  joined : ∀ base path name, ns.ofFsPath base = .ok path → checkName name = .ok () →
    ns.ofFsPath (base.joinName name) = path.join name ∧ path.join name = .ok ⟨path.owner, path.names ++ [name]⟩

/-- **A namespace reads the paths of filesystems by their components.** It takes those whose components, apart from a
root, are all valid names in well-formed text, as the path of these names; so it reads the text of each of its own paths
as that path, and a name joined to what it can read as one name more. -/
theorem reads_filesystem_paths (ns : Namespace) : ns.ReadsFsPaths where
  accepted := by
    intro p
    constructor
    · rintro ⟨path, hpath⟩ c hc
      obtain ⟨-, hvalid, hnames⟩ := ofFsPath_eq_ok_iff.1 hpath
      by_cases hroot : c = .root
      · exact .inl hroot
      · have hm : c ∈ p.components.filter (· ≠ .root) := List.mem_filter.2 ⟨hc, by simpa using hroot⟩
        rw [hnames, List.mem_map] at hm
        obtain ⟨name, hname, rfl⟩ := hm
        exact .inr ⟨_, name, rfl, Text.decode?_encode name, checkName_ok_iff.2 (hvalid name hname)⟩
    · intro h
      obtain ⟨names, hvalid, hnames⟩ := exists_names h
      exact ⟨⟨ns.id, names⟩, ofFsPath_eq_ok_iff.2 ⟨rfl, hvalid, hnames⟩⟩
  names := by
    intro p path hpath
    obtain ⟨howner, -, hnames⟩ := ofFsPath_eq_ok_iff.1 hpath
    exact ⟨howner, hnames⟩
  displayed := fun path howner hvalid => ofFsPath_text howner (checkNames_eq_ok.1 hvalid)
  joined := by
    intro base path name hbase hname
    have hjoin : path.join name = .ok ⟨path.owner, path.names ++ [name]⟩ := by rw [AbsolutePath.join, hname]
    have hone : ∀ n ∈ [name], nameFault? n = none := List.forall_mem_singleton.2 (checkName_ok_iff.1 hname)
    rw [hjoin, (ofFsPath_eq_ok.1 hbase).2.1]
    exact ⟨ofFsPath_foldl hbase hone, rfl⟩

/-- blank pieces and dots inside a path or at its end count for nothing, but a dot that it begins with is no name -/
theorem blank_pieces_joined :
    (new 0 {} 0).ofFsPath (.joinName (.ofString "a//./b/.") "c") = .ok ⟨0, ["a", "b", "c"]⟩ ∧
      ¬ ∃ path, (new 0 {} 0).ofFsPath (.ofString "./a") = .ok path := by
  constructor
  · have hbase : (new 0 {} 0).ofFsPath (.ofString "a//./b/.") = .ok ⟨0, ["a", "b"]⟩ := by decide
    obtain ⟨hread, hjoin⟩ := (reads_filesystem_paths (new 0 {} 0)).joined _ _ "c" hbase (by decide)
    exact hread.trans hjoin
  · rw [(reads_filesystem_paths (new 0 {} 0)).accepted]
    intro h
    rcases h .here (by decide) with h | ⟨_, _, h, -⟩
    · cases h
    · cases h

end Namespace

namespace FsPath

/-- the names on a path of components that can be names -/
def names (p : FsPath) : List String :=
  match Namespace.namesOf p p.components with
  | .ok names => names
  | .error _ => []

theorem names_of_ofFsPath {ns : Namespace} {p : FsPath} {path : AbsolutePath} (h : ns.ofFsPath p = .ok path) :
    p.names = path.names := by
  simp only [names, (Namespace.ofFsPath_eq_ok.1 h).1]

theorem mem_names_joinName {p : FsPath} {name : String} (hname : nameFault? name = none) {n : String}
    (hn : n ∈ (p.joinName name).names) : n ∈ p.names ∨ n = name := by
  unfold names at hn
  cases hj : Namespace.namesOf (p.joinName name) (p.joinName name).components with
  | error e => simp only [hj, List.not_mem_nil] at hn
  | ok joined =>
    simp only [hj] at hn
    rw [components_joinName p hname] at hj
    obtain ⟨front, hfront, rfl⟩ := Namespace.namesOf_append p hj
    simpa [names, hfront] using hn

end FsPath

end MountSpace

/-
A namespace mounted in another. Below the mount point the outer namespace reads what the inner one reads behind the
source of the mount, and where the inner one fails the outer one fails with an error of the same kind
(`nested_transparent`). The outer namespace asks the inner one for every place on the way, the inner one walks to it from
its own root each time, and each of them has words of its own for what it misses; a refusal that one namespace has put in
its words the next hands on, so a chain of namespaces is as transparent as one.

Nothing is asked of the filesystems behind the inner namespace but their answers, which may come from further namespaces.
With namespaces that do not mount themselves in the end, no question is handed on so often that it matters
(`answers_settled`), and both read at one moment what the world answers then.
-/
import MountSpace.Proofs.World.Returning
import MountSpace.Proofs.Space.Readings
import MountSpace.Proofs.Path.Given

namespace MountSpace

/-- below a point the outer namespace reads what the inner one reads behind a path, with these names after both -/
structure Transparent (outer inner : Namespace) (ext beyond : External) (point seen names : List String) : Prop where
  list : SameReading (inner.listDirectory beyond ⟨inner.id, seen ++ names⟩)
    (outer.listDirectory ext ⟨outer.id, point ++ names⟩)
  attributes : names ≠ [] → SameReading (inner.readAttributes beyond ⟨inner.id, seen ++ names⟩)
    (outer.readAttributes ext ⟨outer.id, point ++ names⟩)
  content : names ≠ [] → SameReading (inner.readAll beyond ⟨inner.id, seen ++ names⟩)
    (outer.readAll ext ⟨outer.id, point ++ names⟩)

section Across

variable {outer inner : Namespace} {ext beyond : External} {m : MountNode} {path : AbsolutePath}
  (hvia : ext m.record.source.fs = inner.filesystem beyond) (hpath : inner.ofFsPath m.record.source.path = .ok path)
  {names : List String} (hvalid : ∀ n ∈ names, nameFault? n = none)
include hvia hpath hvalid

/-- a question behind the source is the inner namespace's reading of the same names -/
theorem ask_inner : ask (names.foldl .below m.record.source) ext =
    tell (inner.readAttributes beyond ⟨inner.id, path.names ++ names⟩) := by
  rw [ask, foldl_below]
  simp only [hvia, Namespace.filesystem, Namespace.ofFsPath_foldl hpath hvalid]

/-- the content of what is reached is the inner namespace's, or both find a directory -/
theorem readAll_inner {longer : AbsolutePath} {name : String} {attributes : Attributes}
    (hplace : outer.place ext longer = .ok (.real name (names.foldl .below m.record.source)))
    (hread : inner.readAttributes beyond ⟨inner.id, path.names ++ names⟩ = .ok attributes) :
    SameReading (inner.readAll beyond ⟨inner.id, path.names ++ names⟩) (outer.readAll ext longer) := by
  have hgiven := Namespace.ofFsPath_foldl hpath hvalid
  have hasked : (ext (names.foldl .below m.record.source).fs).getattr (names.foldl .below m.record.source).path =
      .ok attributes := by
    rw [foldl_below]
    simp only [hvia, Namespace.filesystem, hgiven, hread]
  have houter := Namespace.openRead_real hplace hasked
  rw [Namespace.readAttributes] at hread
  cases hp : inner.place beyond ⟨inner.id, path.names ++ names⟩ with
  | error e =>
    rw [hp] at hread
    cases hread
  | ok place =>
    rw [hp] at hread
    -- a directory is one for both
    have directory (hdir : attributes.kind = .directory)
        (hinner : inner.openRead beyond ⟨inner.id, path.names ++ names⟩ .reading =
          .error (.isADirectory (AbsolutePath.text ⟨inner.id, path.names ++ names⟩))) :
        SameReading (inner.readAll beyond ⟨inner.id, path.names ++ names⟩) (outer.readAll ext longer) := by
      rw [if_pos hdir] at houter
      rw [Namespace.readAll, hinner, Namespace.readAll, houter]
      exact rfl
    rcases place with ⟨id, dir⟩ | ⟨id, node⟩ | ⟨last, there⟩
    · cases hread
      exact directory rfl (by simp only [Namespace.openRead, hp]; rfl)
    · cases hread
      exact directory rfl (by simp only [Namespace.openRead, hp]; rfl)
    · have hinner := Namespace.openRead_real hp hread
      by_cases hdir : attributes.kind = .directory
      · rw [if_pos hdir] at hinner
        exact directory hdir hinner
      · rw [if_neg hdir] at hinner houter
        rw [Namespace.readAll_of_open hinner, Namespace.readAll_of_open houter]
        refine .of_eq ?_
        -- each chunk is read from a file the inner namespace opens for it
        have hchunk : ∀ position, (ext (names.foldl .below m.record.source).fs).read
            (names.foldl .below m.record.source).path position readChunk =
              (beyond there.fs).read there.path position readChunk := by
          intro position
          rw [foldl_below]
          simp only [hvia, Namespace.filesystem, hgiven, hinner, Channel.seek, Channel.read]
          cases (beyond there.fs).read there.path position readChunk <;> rfl
        simp only [hchunk]

/-- what the outer namespace reaches outside shows what the inner one reads -/
theorem transparent_reached {point : List String} {last : String}
    (hplace : outer.place ext ⟨outer.id, point ++ names⟩ = .ok (.real last (names.foldl .below m.record.source)))
    (hasked : ask (names.foldl .below m.record.source) ext = .ok ()) :
    Transparent outer inner ext beyond point path.names names := by
  have hgiven := Namespace.ofFsPath_foldl hpath hvalid
  rw [ask_inner hvia hpath hvalid] at hasked
  obtain ⟨attributes, hread⟩ := tell_eq_ok.1 hasked
  refine ⟨.of_eq ?_, fun _ => .of_eq ?_, fun _ => readAll_inner hvia hpath hvalid hplace hread⟩
  · rw [Namespace.listDirectory_external hplace rfl]
    simp only [foldl_below, hvia, Namespace.filesystem, hgiven]
  · rw [Namespace.readAttributes_real hplace]
    simp only [foldl_below, hvia, Namespace.filesystem, hgiven]

end Across

/-- two refusals of one kind read the same -/
theorem transparent_of_refusals {outer inner : Namespace} {ext beyond : External} {point seen names : List String}
    {e e' : FsError} (hinner : inner.place beyond ⟨inner.id, seen ++ names⟩ = .error e)
    (houter : outer.place ext ⟨outer.id, point ++ names⟩ = .error e') (hsame : e.ctorIdx = e'.ctorIdx) :
    Transparent outer inner ext beyond point seen names := by
  have hin := Namespace.refuses_of_place hinner
  have hout := Namespace.refuses_of_place houter
  refine ⟨?_, fun _ => ?_, fun _ => ?_⟩
  · rw [hin.list, hout.list]
    exact hsame
  · rw [hin.attributes, hout.attributes]
    exact hsame
  · rw [hin.content, hout.content]
    exact hsame

/-- **A mounted namespace shows through**, whichever filesystems answer behind it. -/
theorem transparent {outer inner : Namespace} (hopen : outer.isOpen = true) {point : List String} {id : NodeId}
    {m : MountNode} (hpoint : outer.tree.Finds outer.tree.root point id)
    (hnode : outer.tree.node? id = some (.mount m)) {path : AbsolutePath}
    (hpath : inner.ofFsPath m.record.source.path = .ok path) {names : List String}
    (hvalid : ∀ n ∈ names, nameFault? n = none) {ext beyond : External}
    (hvia : ext m.record.source.fs = inner.filesystem beyond) :
    Transparent outer inner ext beyond point path.names names := by
  have hplace : outer.place ext ⟨outer.id, point ++ names⟩ =
      outer.tree.walk ext ⟨outer.id, point ++ names⟩ point (.mount id m) names := by
    rw [Namespace.place, Namespace.check, if_pos hopen, Namespace.checkBelongs, if_pos rfl]
    exact hpoint.resolve_handed hnode rfl ext
  have hsource : (Place.mount id m).external? = some m.record.source := rfl
  rcases Tree.walk_outside outer.tree ext ⟨outer.id, point ++ names⟩ point hsource hvalid with
    ⟨hpaved, p, hok, -⟩ | ⟨before, name, after, e, hcut, -, hask, hrefused⟩
  · rw [hok] at hplace
    cases hnames : names.getLast? with
    | none =>
      -- the mount itself, whose listing is that of its source
      rw [List.getLast?_eq_none_iff] at hnames
      subst hnames
      cases hok
      have hgiven := Namespace.ofFsPath_foldl hpath hvalid
      rw [List.foldl_nil] at hgiven
      refine ⟨.of_eq ?_, fun hne => absurd rfl hne, fun hne => absurd rfl hne⟩
      rw [Namespace.listDirectory_external hplace hsource, hvia]
      simp only [Namespace.filesystem, hgiven]
    | some last =>
      obtain ⟨before, hback⟩ := List.getLast?_eq_some_iff.1 hnames
      have hend : p = .real last (names.foldl .below m.record.source) := by
        rw [hback] at hok hvalid ⊢
        exact Tree.walk_external_ok hsource hvalid hok
      subst hend
      have hne : names ≠ [] := by
        rw [hback]
        simp
      exact transparent_reached hvia hpath hvalid hplace (hpaved names hne (List.prefix_refl names))
  · rw [hrefused] at hplace
    have hshort : ∀ n ∈ before ++ [name], nameFault? n = none := by
      intro n hn
      refine hvalid n ?_
      rw [hcut, List.append_cons]
      exact List.mem_append_left _ hn
    rw [ask_inner hvia hpath hshort] at hask
    have hmissed := Namespace.place_of_no_attributes (tell_eq_error.1 hask)
    have hnames : path.names ++ names = path.names ++ (before ++ [name]) ++ after := by
      rw [hcut]
      simp
    have howner : AbsolutePath.owner ⟨inner.id, path.names ++ names⟩ = inner.id := rfl
    obtain ⟨hstays, e', hlonger, hkind⟩ := Namespace.place_longer hmissed howner hnames
    exact transparent_of_refusals hlonger hplace
      (hkind.trans (hstays ⟨outer.id, point ++ names⟩ (point ++ (before ++ [name]))).symm)

namespace World

/-! ## Namespaces that do not mount themselves -/

/-- one namespace mounts another, in view or under another mount -/
def Mounts (w : World) (a b : NamespaceId) : Prop :=
  ∃ ns v m, w.namespace? a = some ns ∧ ns.tree.node? v = some (.mount m) ∧ m.record.source.fs = .space b

/-- nothing that the namespace mounts, directly or through others, mounts itself in the end, nor does the namespace -/
def Grounded (w : World) (i : NamespaceId) : Prop :=
  ∀ j, Relation.ReflTransGen w.Mounts i j → ¬ Relation.TransGen w.Mounts j j

theorem answers_volume (w : World) (n k : Nat) : w.answers n (.volume k) = w.volumeAnswers k := by
  cases n <;> rfl

theorem answers_space {w : World} {i : NamespaceId} {ns : Namespace} (hns : w.namespace? i = some ns) (n : Nat) :
    w.answers (n + 1) (.space i) = ns.filesystem (w.answers n) := by
  simp only [answers, hns]

/-- different namespaces that are there are no more than there are -/
theorem length_le_of_present {w : World} {visited : List NamespaceId} (hnodup : visited.Nodup)
    (hpresent : ∀ v ∈ visited, (w.namespace? v).isSome) : visited.length ≤ w.namespaces.size := by
  have hsub : visited ⊆ List.range' 1 w.namespaces.size := by
    intro v hv
    have hsome := hpresent v hv
    unfold namespace? at hsome
    split at hsome
    · cases hsome
    · next hzero =>
      obtain ⟨ns, hns⟩ := Option.isSome_iff_exists.1 hsome
      obtain ⟨hlt, -⟩ := Array.getElem?_eq_some_iff.1 hns
      have hpos : 0 < v := Nat.pos_of_ne_zero hzero
      exact List.mem_range'_1.2 ⟨hpos, by omega⟩
  have hle := (List.subperm_of_subset hnodup hsub).length_le
  rwa [List.length_range'] at hle

/-- along a chain of mounts no namespace comes twice, so after one crossing for each nothing changes any more -/
theorem answers_settled {w : World} {root : NamespaceId} (hg : w.Grounded root) {k : Nat} :
    ∀ {visited : List NamespaceId} {i : NamespaceId}, (i :: visited).Nodup →
      (∀ v ∈ visited, (w.namespace? v).isSome ∧ Relation.TransGen w.Mounts v i) →
      Relation.ReflTransGen w.Mounts root i → w.namespaces.size < visited.length + k →
      ∀ n, k ≤ n → w.answers n (.space i) = w.answers k (.space i) := by
  induction k with
  | zero =>
    intro visited i hnodup hchain _ hlong
    have hle := length_le_of_present (List.nodup_cons.1 hnodup).2 fun v hv => (hchain v hv).1
    omega
  | succ k ih =>
    intro visited i hnodup hchain hreach hlong n hn
    obtain ⟨n, rfl⟩ : ∃ n', n = n' + 1 := ⟨n - 1, by omega⟩
    cases hns : w.namespace? i with
    | none => simp only [answers, hns]
    | some ns =>
      rw [answers_space hns, answers_space hns]
      refine Namespace.filesystem_local fun v m hm => ?_
      cases hfs : m.record.source.fs with
      | volume x => rw [answers_volume, answers_volume]
      | space j =>
        have hmounts : w.Mounts i j := ⟨ns, v, m, hns, hm, hfs⟩
        have hchain' : ∀ u ∈ i :: visited, (w.namespace? u).isSome ∧ Relation.TransGen w.Mounts u j := by
          intro u hu
          rcases List.mem_cons.1 hu with rfl | hu
          · exact ⟨Option.isSome_of_eq_some hns, .single hmounts⟩
          · exact ⟨(hchain u hu).1, .tail (hchain u hu).2 hmounts⟩
        have hfresh : j ∉ i :: visited := fun hj => hg j (hreach.tail hmounts) (hchain' j hj).2
        refine ih (List.nodup_cons.2 ⟨hfresh, hnodup⟩) hchain' (hreach.tail hmounts) ?_ n (by omega)
        rw [List.length_cons]
        omega

/-- what a grounded namespace mounts answers the same at the limit of crossings and one before it -/
theorem sameAnswers_external {w : World} {i : NamespaceId} {ns : Namespace} (hg : w.Grounded i)
    (hns : w.namespace? i = some ns) : ns.tree.SameAnswers (w.answers (w.crossingLimit - 1)) w.external := by
  intro v m hm
  cases hfs : m.record.source.fs with
  | volume x => rw [external, answers_volume, answers_volume]
  | space j =>
    have hmounts : w.Mounts i j := ⟨ns, v, m, hns, hm, hfs⟩
    have hother : j ≠ i := fun hj => hg i .refl (.single (hj ▸ hmounts))
    have hchain : ∀ u ∈ [i], (w.namespace? u).isSome ∧ Relation.TransGen w.Mounts u j := by
      intro u hu
      rw [List.mem_singleton.1 hu]
      exact ⟨Option.isSome_of_eq_some hns, .single hmounts⟩
    refine (answers_settled hg (k := w.crossingLimit - 1) (by simpa using hother) hchain (.single hmounts) ?_
      w.crossingLimit (by omega)).symm
    rw [List.length_singleton, crossingLimit]
    omega

/-- **Nested namespaces are transparent.** Where one namespace is mounted in another, the outer one reads below the mount
point what the inner one reads behind the source: whatever lies beyond the inner one; at each depth of questions, with
one crossing more; and, if the inner one does not mount itself through others, at one and the same moment. -/
theorem nested_transparent (w : World) {i : NamespaceId} {outer inner : Namespace} {point : List String} {id : NodeId}
    {m : MountNode} {path : AbsolutePath} {names : List String} (hi : w.namespace? i = some inner)
    (hpoint : outer.place w.external ⟨outer.id, point⟩ = .ok (.mount id m)) (hfs : m.record.source.fs = .space i)
    (hpath : inner.ofFsPath m.record.source.path = .ok path) (hnames : checkNames names = .ok ()) :
    (∀ ext beyond, ext (.space i) = inner.filesystem beyond →
      Transparent outer inner ext beyond point path.names names) ∧
    (∀ k, Transparent outer inner (w.answers (k + 1)) (w.answers k) point path.names names) ∧
    (w.Grounded i → Transparent outer inner w.external w.external point path.names names) := by
  have hvalid := checkNames_eq_ok.1 hnames
  obtain ⟨hcheck, hresolve⟩ := Namespace.place_eq_ok.1 hpoint
  obtain ⟨hfinds, hnode⟩ := Tree.finds_mount hresolve
  have hopen : outer.isOpen = true := by
    rw [Namespace.check] at hcheck
    split at hcheck
    · assumption
    · cases hcheck
  have any : ∀ ext beyond, ext (.space i) = inner.filesystem beyond →
      Transparent outer inner ext beyond point path.names names := by
    intro ext beyond hvia
    exact transparent hopen hfinds hnode hpath hvalid (by rw [hfs, hvia])
  have deeper : ∀ k, Transparent outer inner (w.answers (k + 1)) (w.answers k) point path.names names :=
    fun k => any _ _ (answers_space hi k)
  refine ⟨any, deeper, fun hg => ?_⟩
  have hlast := deeper (w.crossingLimit - 1)
  have hsame := sameAnswers_external hg hi
  have hlimit : w.crossingLimit - 1 + 1 = w.crossingLimit := by
    rw [crossingLimit]
    omega
  rw [hlimit] at hlast
  refine ⟨?_, fun hne => ?_, fun hne => ?_⟩
  · rw [← Namespace.listDirectory_local hsame]
    exact hlast.list
  · rw [← Namespace.readAttributes_local hsame]
    exact hlast.attributes hne
  · rw [← Namespace.readAll_local hsame]
    exact hlast.content hne

/-- a volume with one file, mounted in the second of two namespaces, which is mounted in the first -/
def shelved : World :=
  let (fs, w) := twoSpaces.createMemory
  let w := (w.changeStore fs fun now => MemoryStore.insertFile now (.ofString "/f") ⟨#[1, 2]⟩).2
  ((w.mount 2 ⟨⟨fs, .rootPath⟩, ⟨2, ["b"]⟩⟩).2.mount 1 firstRequest).2

/-- the second namespace mounts a volume and no namespace, so it is grounded and the first shows its file -/
theorem shelved_transparent : ∃ outer inner, shelved.namespace? 1 = some outer ∧ shelved.namespace? 2 = some inner ∧
    shelved.Grounded 2 ∧ Transparent outer inner shelved.external shelved.external ["a"] ["b"] ["f"] := by
  let outer := (shelved.namespace? 1).get rfl
  let inner := (shelved.namespace? 2).get rfl
  have hleaf : ∀ j, ¬ shelved.Mounts 2 j := by
    rintro j ⟨ns, v, m, hns, hm, hfs⟩
    cases (show shelved.namespace? 2 = some inner from rfl).symm.trans hns
    match v with
    | 0 => cases hm
    | 1 => cases hm
    | 2 =>
      cases hm
      cases hfs
    | v + 3 => cases hm
  have hgrounded : shelved.Grounded 2 := by
    intro j hj hround
    rcases Relation.ReflTransGen.cases_head hj with rfl | ⟨k, hk, -⟩
    · obtain ⟨k, hk, -⟩ := Relation.TransGen.head'_iff.1 hround
      exact hleaf k hk
    · exact hleaf k hk
  have hpoint : outer.place shelved.external ⟨outer.id, ["a"]⟩ =
      .ok (.mount 2 ⟨"a", ⟨2, ⟨1, ["a"]⟩, ⟨.space 2, .ofString "/b"⟩⟩, .at 9, 1⟩) := rfl
  have hpath : inner.ofFsPath (.ofString "/b") = .ok ⟨2, ["b"]⟩ := rfl
  have hnames : checkNames ["f"] = .ok () := rfl
  have hshown := nested_transparent shelved (rfl : shelved.namespace? 2 = some inner) hpoint rfl hpath hnames
  exact ⟨outer, inner, rfl, rfl, hgrounded, hshown.2.2 hgrounded⟩

end World

end MountSpace

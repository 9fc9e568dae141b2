/-
What a mount shows of a host directory. The step across the mount looks at names only, and the view behind it at its own
root only, so what can be read below a mount is what the view's root holds, whichever directory was mounted
(`mount_shows_root`). A link in the mounted directory that leads out of it, but not out of the root, is followed: a path
is confined to the mounted directory exactly if it leads into it or out of the root altogether (`confined_iff`). Mounting
the root itself confines all of them (`root_mount_confined`).
-/
import Mathlib
import MountSpace.Proofs.Host.Shown
import MountSpace.Proofs.Space.Readings
import MountSpace.World.Edit

namespace MountSpace

namespace Namespace

/-! ## Readings of a path -/

/-- listing, attributes or reading succeed -/
def Opens (ns : Namespace) (ext : External) (path : AbsolutePath) : Prop :=
  (∃ entries, ns.listDirectory ext path = .ok entries) ∨ (∃ attributes, ns.readAttributes ext path = .ok attributes) ∨
    ∃ content, ns.readAll ext path = .ok content

/-- of a path that leads to a physical path of the host: it opens at or below the base only, and is refused as an escape
anywhere else -/
structure Confined (ns : Namespace) (ext : External) (path : AbsolutePath) (base key : HostKey) : Prop where
  opens : ns.Opens ext path → base <+: key
  refuses : ¬ base <+: key → ns.Refuses ext path (traversalPrevented path)

/-! ## Places below a mount -/

section Mounted

variable {ns : Namespace} {ext : External} {owner : NamespaceId} {point : List String} {id : NodeId} {m : MountNode}
  (hmount : ns.place ext ⟨owner, point⟩ = .ok (.mount id m))
include hmount

theorem place_below (names : List String) : ns.place ext ⟨owner, point ++ names⟩ =
    ns.tree.walk ext ⟨owner, point ++ names⟩ point (.mount id m) names := by
  have hcheck : ns.check ⟨owner, point⟩ = .ok () := by
    rw [place] at hmount
    cases hc : ns.check ⟨owner, point⟩ with
    | error e =>
      rw [hc] at hmount
      cases hmount
    | ok _ => rfl
  have hbelow : ns.check ⟨owner, point ++ names⟩ = .ok () := by
    unfold check checkBelongs at hcheck ⊢
    split at hcheck
    · split at hcheck
      · next ho hid => rw [if_pos ho, if_pos hid]
      · cases hcheck
    · cases hcheck
  rw [place, hcheck] at hmount
  rw [place, hbelow]
  simp only [Tree.resolve] at hmount ⊢
  cases hroot : ns.tree.node? ns.tree.root with
  | none =>
    simp only [hroot] at hmount
    cases hmount
  | some root =>
    simp only [hroot] at hmount ⊢
    rw [Tree.walk_append, Tree.walk_ok_path hmount]
    rfl

/-- what lies below the mount is behind its source, name by name -/
theorem place_below_ok {before : List String} {name : String} (hvalid : ∀ n ∈ before ++ [name], nameFault? n = none)
    {p : Place} (h : ns.place ext ⟨owner, point ++ (before ++ [name])⟩ = .ok p) :
    p = .real name ((before ++ [name]).foldl .below m.record.source) := by
  rw [place_below hmount] at h
  exact Tree.walk_external_ok rfl hvalid h

/-- with the place above it reached, a name below the mount asks for what is behind the source -/
theorem place_below_reached {before : List String} {name : String}
    (hvalid : ∀ n ∈ before ++ [name], nameFault? n = none) {p : Place}
    (hreached : ns.place ext ⟨owner, point ++ before⟩ = .ok p) (after : List String) :
    ns.tree.walk ext ⟨owner, point ++ (before ++ name :: after)⟩ point (.mount id m) (before ++ [name]) =
      Tree.descendTold ⟨owner, point ++ (before ++ name :: after)⟩ (point ++ before) name
        ((before ++ [name]).foldl .below m.record.source)
        (ask ((before ++ [name]).foldl .below m.record.source) ext) := by
  rw [place_below hmount] at hreached
  exact Tree.walk_external_last rfl hvalid (Tree.walk_ok_path hreached _ point)

/-- the refusal of a name that has been reached is the refusal of every path through it -/
theorem place_through {before : List String} {name : String} (hvalid : ∀ n ∈ before ++ [name], nameFault? n = none)
    {p : Place} (hreached : ns.place ext ⟨owner, point ++ before⟩ = .ok p) {e : FsError}
    (hask : ask ((before ++ [name]).foldl .below m.record.source) ext = .error e) (after : List String) :
    ns.place ext ⟨owner, point ++ (before ++ name :: after)⟩ =
      .error (Outline.refusal ⟨owner, point ++ (before ++ name :: after)⟩ (point ++ before ++ [name]) e) := by
  have hcut : before ++ name :: after = (before ++ [name]) ++ after := by simp
  have hlast := place_below_reached hmount hvalid hreached after
  rw [hask] at hlast
  rw [place_below hmount, hcut, Tree.walk_append, ← hcut, hlast]
  rfl

end Mounted

/-! ## A host directory mounted -/

section Host

variable {ns : Namespace} {ext : External} {owner : NamespaceId} {point : List String} {id : NodeId} {m : MountNode}
  {host : Host} {root : FsPath}

/-- the path of the view that names below the mount stand for -/
def belowSource (m : MountNode) (names : List String) : FsPath := (names.foldl .below m.record.source).path

theorem foldl_below_fs (names : List String) (at_ : ExternalPath) : (names.foldl .below at_).fs = at_.fs := by
  rw [foldl_below]

theorem belowSource_ne_nil {before : List String} {name : String} (hname : nameFault? name = none) :
    (belowSource m (before ++ [name])).withoutRoot.bytes ≠ [] := by
  rw [belowSource, List.foldl_append]
  exact FsPath.withoutRoot_joinName_ne_nil _ hname

/-- a name that leads out of the root refuses every path through it -/
theorem refuses_outside (hview : ext m.record.source.fs = host.view root)
    (hmount : ns.place ext ⟨owner, point⟩ = .ok (.mount id m)) {before after : List String} {name : String}
    (hvalid : ∀ n ∈ before ++ [name], nameFault? n = none) {p : Place}
    (hreached : ns.place ext ⟨owner, point ++ before⟩ = .ok p) {key : HostKey}
    (hleads : host.keyIn root (belowSource m (before ++ [name])) = .ok key)
    (hout : (FsPath.ofNames key).startsWith root = false) :
    ns.Refuses ext ⟨owner, point ++ (before ++ name :: after)⟩
      (traversalPrevented ⟨owner, point ++ (before ++ name :: after)⟩) := by
  obtain ⟨text, hescape⟩ := Host.viewPath_outside (belowSource_ne_nil (hvalid name (by simp))) hleads hout
  have hask : ask ((before ++ [name]).foldl .below m.record.source) ext = .error (.escapesRoot text) := by
    rw [belowSource] at hescape
    simp only [ask, foldl_below_fs, hview, Host.view, Host.viewGetattr, Host.viewEntry, hescape]
    rfl
  exact refuses_of_place (place_through hmount hvalid hreached hask after)

section Exposed

variable (hcwd : host.CwdPhysical) (hview : ext m.record.source.fs = host.view root)
  (hmount : ns.place ext ⟨owner, point⟩ = .ok (.mount id m)) {before : List String} {name : String}
  (hvalid : ∀ n ∈ before ++ [name], nameFault? n = none)
include hcwd hview hmount hvalid

theorem listed_below {entries : List Entry}
    (h : ns.listDirectory ext ⟨owner, point ++ (before ++ [name])⟩ = .ok entries) :
    ∃ key mtime, host.Shows root (belowSource m (before ++ [name])) key ∧
      host.get? key = some (.directory mtime) ∧ entries = host.list key := by
  rw [listDirectory] at h
  cases hp : ns.place ext ⟨owner, point ++ (before ++ [name])⟩ with
  | error e =>
    rw [hp] at h
    cases h
  | ok p =>
    obtain rfl := place_below_ok hmount hvalid hp
    simp only [hp, foldl_below_fs, hview] at h
    exact Host.viewReaddir_eq_ok hcwd (belowSource_ne_nil (hvalid name (by simp))) h

theorem attributes_below {attributes : Attributes}
    (h : ns.readAttributes ext ⟨owner, point ++ (before ++ [name])⟩ = .ok attributes) :
    ∃ key entry, host.Shows root (belowSource m (before ++ [name])) key ∧ host.get? key = some entry ∧
      attributes = entry.attributes := by
  rw [readAttributes] at h
  cases hp : ns.place ext ⟨owner, point ++ (before ++ [name])⟩ with
  | error e =>
    rw [hp] at h
    cases h
  | ok p =>
    obtain rfl := place_below_ok hmount hvalid hp
    simp only [hp, foldl_below_fs, hview] at h
    exact Host.viewGetattr_eq_ok hcwd (belowSource_ne_nil (hvalid name (by simp))) h

theorem content_below {content : ByteArray}
    (h : ns.readAll ext ⟨owner, point ++ (before ++ [name])⟩ = .ok content) :
    ∃ key mtime, host.Shows root (belowSource m (before ++ [name])) key ∧
      host.get? key = some (.file content mtime) := by
  cases ho : ns.openRead ext ⟨owner, point ++ (before ++ [name])⟩ .reading with
  | error e =>
    rw [readAll, ho] at h
    cases h
  | ok channel =>
    obtain ⟨nm, at_, a, hp, -, -, rfl⟩ := openRead_eq_ok ho
    cases place_below_ok hmount hvalid hp
    rw [readAll_of_open ho] at h
    split at h
    · cases h
    · simp only [foldl_below_fs, hview] at h
      exact Host.readOn_viewRead hcwd (belowSource_ne_nil (hvalid name (by simp))) h

/-- what opens below the mount is inside the root -/
theorem inside_of_opens (h : ns.Opens ext ⟨owner, point ++ (before ++ [name])⟩) {key : HostKey}
    (hleads : host.keyIn root (belowSource m (before ++ [name])) = .ok key) :
    (FsPath.ofNames key).startsWith root = true := by
  have hsame : ∀ there, host.Shows root (belowSource m (before ++ [name])) there →
      (FsPath.ofNames key).startsWith root = true := by
    intro there hshows
    have hkey : there = key := by
      have hl := hshows.leads
      rw [hleads] at hl
      exact (Except.ok.inj hl).symm
    rw [← hkey]
    exact hshows.inside
  rcases h with ⟨entries, hok⟩ | ⟨attributes, hok⟩ | ⟨content, hok⟩
  · obtain ⟨there, -, hshows, -⟩ := listed_below hcwd hview hmount hvalid hok
    exact hsame there hshows
  · obtain ⟨there, -, hshows, -⟩ := attributes_below hcwd hview hmount hvalid hok
    exact hsame there hshows
  · obtain ⟨there, -, hshows, -⟩ := content_below hcwd hview hmount hvalid hok
    exact hsame there hshows

omit hcwd in
/-- what leads inside the root is not refused as an escape -/
theorem not_refused_inside {p : Place} (hreached : ns.place ext ⟨owner, point ++ before⟩ = .ok p) {key : HostKey}
    (hshows : host.Shows root (belowSource m (before ++ [name])) key) :
    ns.readAttributes ext ⟨owner, point ++ (before ++ [name])⟩ ≠
      .error (traversalPrevented ⟨owner, point ++ (before ++ [name])⟩) := by
  have hasked : ∀ answer, host.viewGetattr root (belowSource m (before ++ [name])) = answer →
      ask ((before ++ [name]).foldl .below m.record.source) ext = tell answer := by
    intro answer hanswer
    rw [ask, foldl_below_fs, hview, ← hanswer]
    rfl
  rw [readAttributes]
  rcases Host.viewGetattr_inside (belowSource_ne_nil (hvalid name (by simp))) hshows with ⟨attributes, ha⟩ | ⟨e, he⟩
  · have hp : ns.place ext ⟨owner, point ++ (before ++ [name])⟩ =
        .ok (.real name ((before ++ [name]).foldl .below m.record.source)) := by
      rw [place_below hmount, place_below_reached hmount hvalid hreached [], hasked _ ha]
      rfl
    rw [belowSource] at ha
    simp only [hp, foldl_below_fs, hview, Host.view, ha]
    simp
  · rw [place_through hmount hvalid hreached (hasked _ he) []]
    intro hrefused
    cases e with
    | mk kind message => cases kind <;> cases hrefused

/-- a path that leads to an object is confined to a directory exactly if leading into the root is leading into it -/
theorem confined_iff {p : Place} (hreached : ns.place ext ⟨owner, point ++ before⟩ = .ok p) {base key : HostKey}
    (hleads : host.keyIn root (belowSource m (before ++ [name])) = .ok key) :
    ns.Confined ext ⟨owner, point ++ (before ++ [name])⟩ base key ↔
      ((FsPath.ofNames key).startsWith root = true → base <+: key) := by
  constructor
  · intro hconfined hinside
    by_contra hout
    exact not_refused_inside hview hmount hvalid hreached ⟨hleads, hinside⟩ (hconfined.refuses hout).attributes
  · intro hinside
    refine ⟨fun hopens => hinside (inside_of_opens hcwd hview hmount hvalid hopens hleads), fun hout => ?_⟩
    refine refuses_outside hview hmount hvalid hreached hleads ?_
    rw [Bool.eq_false_iff]
    exact fun hin => hout (hinside hin)

/-- with the root itself mounted, every path that leads to an object is confined to it -/
theorem root_mount_confined {p : Place} (hreached : ns.place ext ⟨owner, point ++ before⟩ = .ok p) {base key : HostKey}
    (hbase : host.keyIn root m.record.source.path = .ok base) (hroot : root = .ofNames base)
    (hleads : host.keyIn root (belowSource m (before ++ [name])) = .ok key) :
    ns.Confined ext ⟨owner, point ++ (before ++ [name])⟩ base key := by
  rw [confined_iff hcwd hview hmount hvalid hreached hleads, hroot]
  have hplain := (Host.canonical_physical hcwd hbase).1.plain
  exact (Host.startsWith_ofNames (Host.canonical_physical hcwd hleads).1.plain hplain).1

end Exposed

/-- **Below a mount of a host directory stands what the root of the view holds.** What is listed, told or read is the
object at the physical path the names lead to, at or below the root; what leads out of the root is refused. So a path that
leads to an object is confined to the mounted directory exactly if the object is in it or outside the root. -/
theorem mount_shows_root (hcwd : host.CwdPhysical) (hview : ext m.record.source.fs = host.view root)
    (hmount : ns.place ext ⟨owner, point⟩ = .ok (.mount id m)) {before : List String} {name : String}
    (hvalid : ∀ n ∈ before ++ [name], nameFault? n = none) :
    (∀ entries, ns.listDirectory ext ⟨owner, point ++ (before ++ [name])⟩ = .ok entries →
      ∃ key mtime, host.Shows root (belowSource m (before ++ [name])) key ∧
        host.get? key = some (.directory mtime) ∧ entries = host.list key) ∧
    (∀ attributes, ns.readAttributes ext ⟨owner, point ++ (before ++ [name])⟩ = .ok attributes →
      ∃ key entry, host.Shows root (belowSource m (before ++ [name])) key ∧
        host.get? key = some entry ∧ attributes = entry.attributes) ∧
    (∀ content, ns.readAll ext ⟨owner, point ++ (before ++ [name])⟩ = .ok content →
      ∃ key mtime, host.Shows root (belowSource m (before ++ [name])) key ∧
        host.get? key = some (.file content mtime)) ∧
    (∀ front nm after p key, before ++ [name] = front ++ nm :: after →
      ns.place ext ⟨owner, point ++ front⟩ = .ok p → host.keyIn root (belowSource m (front ++ [nm])) = .ok key →
      (FsPath.ofNames key).startsWith root = false →
      ns.Refuses ext ⟨owner, point ++ (before ++ [name])⟩
        (traversalPrevented ⟨owner, point ++ (before ++ [name])⟩)) ∧
    ∀ p base key, ns.place ext ⟨owner, point ++ before⟩ = .ok p → host.keyIn root m.record.source.path = .ok base →
      host.keyIn root (belowSource m (before ++ [name])) = .ok key →
      (ns.Confined ext ⟨owner, point ++ (before ++ [name])⟩ base key ↔
        ((FsPath.ofNames key).startsWith root = true → base <+: key)) := by
  refine ⟨fun _ h => listed_below hcwd hview hmount hvalid h, fun _ h => attributes_below hcwd hview hmount hvalid h,
    fun _ h => content_below hcwd hview hmount hvalid h, ?_, ?_⟩
  · intro front nm after p key hcut hreached hleads hout
    have hfront : ∀ n ∈ front ++ [nm], nameFault? n = none := by
      intro n hn
      refine hvalid n ?_
      rw [hcut]
      simp only [List.mem_append, List.mem_cons, List.not_mem_nil, or_false] at hn ⊢
      tauto
    rw [hcut]
    exact refuses_outside hview hmount hfront hreached hleads hout
  · intro p base key hreached _ hleads
    exact confined_iff hcwd hview hmount hvalid hreached hleads

end Host

end Namespace

namespace World

/-- a directory and a file beside it, to which a link in the directory leads -/
def leakyHost : Host where
  entries := [
    ([], .directory 0),
    ([Text.encode "srv"], .directory 0),
    ([Text.encode "srv", Text.encode "secret"], .file "s".toByteArray 0),
    ([Text.encode "srv", Text.encode "pub"], .directory 0),
    ([Text.encode "srv", Text.encode "pub", Text.encode "leak"], .link (.ofString "../secret") 0)]

/-- the directory with the link, to be mounted -/
def leakyRequest : Namespace.MountRequest := ⟨⟨.volume 0, .ofString "/pub"⟩, ⟨1, ["m"]⟩⟩

/-- a view of both and a namespace with a place for the mount -/
def beforeLeak : World :=
  let w := ({ new 0 with host := leakyHost }.openDirectory (.ofString "/srv")).2
  let w := (w.createNamespace {}).2
  (w.createDirectory 1 ⟨1, ["m"]⟩).2

/-- the directory with the link mounted -/
def leaky : World := (beforeLeak.mount 1 leakyRequest).2

/-- the mount of it -/
def leakyMount : MountNode := ⟨"m", ⟨2, ⟨1, ["m"]⟩, leakyRequest.source⟩, .at 3, 1⟩

/-- the namespace it is mounted in -/
def leakySpace : Namespace := (leaky.namespace? 1).getD (.new 1 {} 0)

theorem leaky_mounted : leakySpace.place leaky.external ⟨1, ["m"]⟩ = .ok (.mount 2 leakyMount) := by cbv

theorem leaky_view : leaky.external leakyMount.record.source.fs = leakyHost.view (.ofString "/srv") := by cbv

theorem leakyHost_pub : leakyHost.keyIn (.ofString "/srv") leakyMount.record.source.path =
    .ok [Text.encode "srv", Text.encode "pub"] := by cbv

theorem secret_outside_pub :
    ¬ [Text.encode "srv", Text.encode "pub"] <+: [Text.encode "srv", Text.encode "secret"] := by decide

theorem leakyHost_leak : leakyHost.keyIn (.ofString "/srv") (Namespace.belowSource leakyMount ["leak"]) =
    .ok [Text.encode "srv", Text.encode "secret"] := by cbv

/-- the link is not confined to the directory it is mounted with -/
theorem leak_not_confined : ¬ leakySpace.Confined leaky.external ⟨1, ["m", "leak"]⟩
    [Text.encode "srv", Text.encode "pub"] [Text.encode "srv", Text.encode "secret"] := by
  have hcwd : leakyHost.CwdPhysical := by
    intro here hhere
    cases hhere
  have hvalid : ∀ n ∈ [] ++ ["leak"], nameFault? n = none := by decide
  have hshows := Namespace.mount_shows_root (m := leakyMount) hcwd leaky_view leaky_mounted hvalid
  have hexact := hshows.2.2.2.2 _ _ _ leaky_mounted leakyHost_pub leakyHost_leak
  have hinside : (FsPath.ofNames [Text.encode "srv", Text.encode "secret"]).startsWith (.ofString "/srv") = true := by
    cbv
  intro hconfined
  exact secret_outside_pub (hexact.1 hconfined hinside)

/-- what the link leads to is read, though it lies outside the mounted directory -/
theorem leak_read : (beforeLeak.mount 1 leakyRequest).1 = .ok () ∧ leaky.namespace? 1 = some leakySpace ∧
    leakySpace.place leaky.external ⟨1, ["m"]⟩ = .ok (.mount 2 leakyMount) ∧
    leakyHost.keyIn (.ofString "/srv") leakyMount.record.source.path = .ok [Text.encode "srv", Text.encode "pub"] ∧
    leakyHost.keyIn (.ofString "/srv") (Namespace.belowSource leakyMount ["leak"]) =
      .ok [Text.encode "srv", Text.encode "secret"] ∧
    leaky.external leakyMount.record.source.fs = leakyHost.view (.ofString "/srv") ∧
    leakySpace.readAll leaky.external ⟨1, ["m", "leak"]⟩ = .ok "s".toByteArray ∧
    ¬ [Text.encode "srv", Text.encode "pub"] <+: [Text.encode "srv", Text.encode "secret"] := by
  refine ⟨by cbv, by cbv, leaky_mounted, leakyHost_pub, leakyHost_leak, leaky_view, ?_, secret_outside_pub⟩
  have hopen : leakySpace.openRead leaky.external ⟨1, ["m", "leak"]⟩ .reading =
      .ok ⟨⟨.volume 0, .ofString "/pub/leak"⟩, 1, 0⟩ := by cbv
  rw [Namespace.readAll_of_open hopen, if_neg (by decide)]
  exact readOn_once (by cbv) (by cbv) (by decide) (by decide)

end World

end MountSpace

/-
Mounting what the settings list. Each entry makes the directories of its path and mounts a view of a host directory
there. The directories are made around and above the mounts of earlier entries, and an entry above an earlier one hides
it; what an entry must not do is lie at or below an earlier one, where it would come to that one's mount.

The induction is on the entries that have been followed (`Followed`): what is in view stands at paths of these entries
alone, so that no mount is in the way of the next one, and every entry that no later one hides is still in view.

- `Followed.added`, `Added.followed`: one entry more;
- `Followed.mountAll`: any list of them;
- `everything_mounted`: all of them, for a new namespace in any world.
-/
import MountSpace.Proofs.Cuts
import MountSpace.Proofs.Path.Grammar
import MountSpace.Proofs.Space.Creation
import MountSpace.Proofs.Tree.Mounts
import MountSpace.Proofs.World.Configured
import MountSpace.Proofs.World.Nested

namespace MountSpace

namespace Namespace

section Step

variable {ns : Namespace} {path : AbsolutePath} (hopen : ns.isOpen = true) (howner : path.owner = ns.id)
include hopen howner

/-- where no mount is on the way, the directories of a path are made, and what is mounted where stays as it is -/
theorem createDirectories_clear (h : ns.tree.Sound) (ha : ns.tree.Apart)
    (hvalid : ∀ n ∈ path.names, nameFault? n = none)
    (clear : ∀ front record, front <+: path.names → ¬ ns.tree.HasMount front record) (ext : External) (now : Time) :
    ∃ u p, ns.createDirectories ext now path = (.ok (), { ns with tree := u }) ∧ u.Ground p path.names ∧
      ns.tree.SameMounts u := by
  have hbare : ns.tree.actAt ns.tree.root = none := by
    cases hact : ns.tree.actAt ns.tree.root with
    | none => rfl
    | some act => exact absurd ⟨_, act.2, .here, hact⟩ (clear [] act.1 List.nil_prefix)
  rcases createDirectories_cases h ha hbare hopen howner hvalid ext now with
    ⟨front, left, p, u, hnames, g, free, hmade, on⟩ | ⟨front, v, m, e, hpre, way, hm, -, -⟩
  · obtain ⟨last, hlast⟩ := on.ground g
    rw [← hnames] at hlast
    exact ⟨u, last, hmade, hlast, on.sameMounts g⟩
  · exact absurd (Tree.hasMount_of_finds way hm) (clear front m.record hpre)

/-- a directory of a filesystem is mounted over a directory of the tree -/
theorem mount_directory {p : NodeId} (g : ns.tree.Ground p path.names) (hne : path.names ≠ []) {ext : External}
    (source : ExternalPath) {a : Attributes} (hasked : (ext source.fs).getattr source.path = .ok a)
    (hkind : a.kind = .directory) (now : Time) :
    ∃ u, ns.mount ext now ⟨source, path⟩ =
        (.ok (), { ns with tree := u, mounts := ns.mounts ++ [⟨ns.tree.nextId, path, source⟩] }) ∧
      u.Sound ∧ u.Apart ∧ ns.tree.Overlaid path.names ⟨ns.tree.nextId, path, source⟩ u := by
  obtain ⟨d, hd⟩ := g.directory
  have hlinked := g.sound.toLinked
  have hname : ns.tree.name? p = some d.name := by rw [Tree.name?, hd]; rfl
  have hroot : p ≠ ns.tree.root := by
    rintro rfl
    have hfold := Tree.finds_unique hlinked g.found .here
    exact hne (List.map_eq_nil_iff.1 hfold)
  obtain ⟨⟨id, u⟩, hu⟩ : ∃ made, ns.tree.replaceWith p
      (.mount ⟨d.name, ⟨ns.tree.nextId, path, source⟩, .at now, p⟩) = some made :=
    Option.isSome_iff_exists.1 ((Tree.replaceWith_isSome ..).trans g.attached)
  have mounted : ns.tree.Mounted p _ u := Tree.mounted_replace hlinked rfl hu
  have sound : u.Sound := by
    refine Tree.sound_replace g.sound (fun s hs => ?_) hu
    cases hs
    rfl
  have apart : u.Apart := Tree.apart_swapped hlinked g.apart mounted.toSwapped (mounted.keepsNames hlinked hname)
  refine ⟨u, ?_, sound, apart, ?_⟩
  · have hcheck : ns.check path = .ok () := check_eq_ok.2 ⟨hopen, howner⟩
    have hisRoot : path.isRoot = false := by simpa [AbsolutePath.isRoot] using hne
    have hr : ns.tree.resolve ext path = .ok (.directory p d) := g.found.resolve hd ext
    simp [mount, cover, hcheck, hisRoot, hasked, hkind, hr, hu]
  · exact mounted.overlaid hlinked g.apart sound.toLinked hname g.found hroot

end Step

end Namespace

/-- a setting that can be followed: its text is read as a path below the root, and its source is a directory of the
host. A view asks for the directory by its physical path alone, so it is by this that the host has to know it, which it
does unless the path is too long for it (`Host.pathLimit`). -/
structure Mountable (host : Host) (id : NamespaceId) where
  setting : MountSetting
  path : AbsolutePath
  root : HostKey
  read : AbsolutePath.parse id setting.at_ = .ok path
  belowRoot : path.isRoot = false
  physical : host.canonical setting.source = .ok root
  directory : ∃ mtime, host.stat (.ofNames root) = .ok (.directory mtime)

namespace Mountable

variable {host : Host} {id : NamespaceId} (e : Mountable host id)

theorem owner : e.path.owner = id := (((reads_absolute id).exact _ _).1 e.read).1

theorem valid : ∀ n ∈ e.path.names, nameFault? n = none :=
  checkNames_eq_ok.1 (AbsolutePath.checkNames_of_parse e.read)

/-- a path at or below another one begins with its names, apart from case -/
theorem startsWith_iff (other : Mountable host id) :
    e.path.startsWith other.path = true ↔ foldNames other.path.names <+: foldNames e.path.names := by
  rw [AbsolutePath.startsWith_iff, e.owner, other.owner]
  exact and_iff_right rfl

theorem names_ne_nil : e.path.names ≠ [] := by
  have hroot := e.belowRoot
  simpa [AbsolutePath.isRoot] using hroot

theorem viewRoot : host.viewRoot e.setting.source = .ofNames e.root := by
  rw [Host.viewRoot, e.physical]

/-- the root of the view is a directory -/
theorem asked : ∃ a, host.viewGetattr (.ofNames e.root) .rootPath = .ok a ∧ a.kind = .directory := by
  obtain ⟨mtime, hstat⟩ := e.directory
  have hpath : host.viewPath (.ofNames e.root) .rootPath = .ok (.ofNames e.root) := by
    rw [Host.viewPath]
    exact if_pos rfl
  refine ⟨(HostEntry.directory mtime).attributes, ?_, rfl⟩
  rw [Host.viewGetattr, Host.viewEntry, hpath]
  simp only [hstat]
  rfl

end Mountable

namespace World

/-- a change of a namespace puts what it has come to in its place, and leaves the volumes and the host alone -/
theorem change_eq {w : World} {ns next : Namespace} {answer : Except FsError Unit}
    {op : External → Time → Namespace → Except FsError Unit × Namespace} (hns : w.namespace? ns.id = some ns)
    (hop : op w.external w.clock ns = (answer, next)) (hid : next.id = ns.id) (readings : Nat) :
    ∃ w', w.change ns.id readings op = (answer, w') ∧ w'.namespace? ns.id = some next ∧ w'.volumes = w.volumes ∧
      w'.host = w.host := by
  refine ⟨(w.setNamespace next).advance readings, ?_, ?_, rfl, rfl⟩
  · rw [change, hns]
    simp only [hop]
  · rw [← hid] at hns ⊢
    exact namespace?_setNamespace hns

variable {host : Host} {id : NamespaceId}

/-- a view of a directory that is there is a new volume whose root is a directory -/
theorem openDirectory_asked (w : World) (e : Mountable host id) (hhost : w.host = host) :
    ∃ w', w.openDirectory e.setting.source = (.volume w.volumes.size, w') ∧
      (∀ number, w'.namespace? number = w.namespace? number) ∧
      w'.volumes = w.volumes.push (.directory (.ofNames e.root)) ∧ w'.host = host ∧
      ∃ a, (w'.external (.volume w.volumes.size)).getattr .rootPath = .ok a ∧ a.kind = .directory := by
  subst hhost
  obtain ⟨a, ha, hkind⟩ := e.asked
  have hopened : w.openDirectory e.setting.source =
      (.volume w.volumes.size, { w with volumes := w.volumes.push (.directory (.ofNames e.root)) }) := by
    rw [openDirectory, addVolume, e.viewRoot]
  refine ⟨_, hopened, fun _ => rfl, rfl, rfl, a, ?_, hkind⟩
  rw [external, answers_volume, volumeAnswers]
  simp only [Array.getElem?_push_size]
  exact ha

/-- the entries that have been followed, and what has come of them -/
structure Followed (w : World) (ns : Namespace) (done : List (Mountable host id)) : Prop where
  host : w.host = host
  number : ns.id = id
  there : w.namespace? ns.id = some ns
  isOpen : ns.isOpen = true
  sound : ns.tree.Sound
  apart : ns.tree.Apart
  listed : ns.mounts.map (fun r => (r.point, r.source.path)) = done.map fun e => (e.path, .rootPath)
  /-- nothing else is in view -/
  seen : ∀ names record, ns.tree.HasMount names record → ∃ e ∈ done, foldNames names = foldNames e.path.names
  /-- what no later entry hides is in view, and shows the directory of the entry -/
  shown : ∀ before e after, done = before ++ e :: after → (∀ later ∈ after, e.path.startsWith later.path = false) →
    ∃ record n, ns.tree.HasMount e.path.names record ∧ record.source = ⟨.volume n, .rootPath⟩ ∧
      w.volumes[n]? = some (.directory (.ofNames e.root))

/-- what following one entry adds: a view of its directory as a new volume, and a mount of it at its path -/
structure Added (w : World) (ns : Namespace) (e : Mountable host id) (w' : World) (record : MountRecord) (u : Tree) :
    Prop where
  there : w'.namespace? ns.id = some { ns with tree := u, mounts := ns.mounts ++ [record] }
  host : w'.host = host
  volumes : w'.volumes = w.volumes.push (.directory (.ofNames e.root))
  point : record.point = e.path
  source : record.source = ⟨.volume w.volumes.size, .rootPath⟩
  sound : u.Sound
  apart : u.Apart
  view : ns.tree.Overlaid e.path.names record u

section Steps

variable {w : World} {ns : Namespace} {done : List (Mountable host id)} (h : w.Followed ns done)

section One

include h

/-- no mount is on the way of an entry that lies neither at nor below an earlier one -/
theorem Followed.clear {e : Mountable host id} (hapart : ∀ earlier ∈ done, e.path.startsWith earlier.path = false)
    (front : List String) (record : MountRecord) (hpre : front <+: e.path.names) :
    ¬ ns.tree.HasMount front record := by
  intro hmount
  obtain ⟨earlier, hearlier, hfold⟩ := h.seen front record hmount
  have hstarts : e.path.startsWith earlier.path = true := by
    rw [e.startsWith_iff, ← hfold]
    exact hpre.map Text.fold
  rw [hapart earlier hearlier] at hstarts
  cases hstarts

/-- an entry that lies neither at nor below an earlier one can be followed -/
theorem Followed.added (e : Mountable host id) (hapart : ∀ earlier ∈ done, e.path.startsWith earlier.path = false) :
    ∃ w' record u, w.mountSetting id e.setting = (.ok (), w') ∧ w.Added ns e w' record u := by
  obtain rfl := h.number
  -- its directories are made, and a view of its source is set up
  obtain ⟨mid, p, hmade, g, hsame⟩ := Namespace.createDirectories_clear h.isOpen e.owner h.sound h.apart e.valid
    (h.clear hapart) w.external w.clock
  have hid : ({ ns with tree := mid } : Namespace).id = ns.id := rfl
  obtain ⟨made, hdirectories, hthere, hvolumes, hhost⟩ : ∃ made, w.createDirectories ns.id e.path = (.ok (), made) ∧
      made.namespace? ns.id = some { ns with tree := mid } ∧ made.volumes = w.volumes ∧ made.host = w.host :=
    change_eq h.there hmade hid (readingsAlong e.path)
  obtain ⟨opened, hopened, hnamespaces, hview, hhost', a, hasked, hkind⟩ :=
    made.openDirectory_asked e (hhost.trans h.host)
  rw [hvolumes] at hopened hview hasked
  have hthere' : opened.namespace? ({ ns with tree := mid } : Namespace).id = some { ns with tree := mid } :=
    (hnamespaces ns.id).trans hthere
  -- the view is mounted in the last of the directories
  have hopen : ({ ns with tree := mid } : Namespace).isOpen = true := h.isOpen
  obtain ⟨u, hmount, sound, apart, hover⟩ := Namespace.mount_directory hopen e.owner g e.names_ne_nil
    ⟨.volume w.volumes.size, .rootPath⟩ hasked hkind opened.clock
  generalize hrecord : MountRecord.mk mid.nextId e.path ⟨.volume w.volumes.size, .rootPath⟩ = record at hmount hover
  have hid' : ({ ns with tree := u, mounts := ns.mounts ++ [record] } : Namespace).id = ns.id := rfl
  obtain ⟨w', hmounted, hlast, hvolumes', hhost''⟩ : ∃ w',
      opened.mount ns.id ⟨⟨.volume w.volumes.size, .rootPath⟩, e.path⟩ = (.ok (), w') ∧
      w'.namespace? ns.id = some { ns with tree := u, mounts := ns.mounts ++ [record] } ∧
      w'.volumes = opened.volumes ∧ w'.host = opened.host :=
    change_eq hthere' hmount hid' 1
  have hrequest : Namespace.MountRequest.new (.volume w.volumes.size) .rootPath e.path =
      .ok ⟨⟨.volume w.volumes.size, .rootPath⟩, e.path⟩ := rfl
  refine ⟨w', record, u, ?_, hlast, hhost''.trans hhost', hvolumes'.trans hview, ?_, ?_, sound, apart,
    hsame.overlaid hover⟩
  · rw [mountSetting, e.read]
    simp only [hdirectories, hopened, hrequest]
    exact hmounted
  · rw [← hrecord]
  · rw [← hrecord]

end One

/-- **One entry more.** -/
theorem Added.followed {w' : World} {e : Mountable host id} {record : MountRecord} {u : Tree}
    (new : w.Added ns e w' record u) (h : w.Followed ns done) :
    w'.Followed { ns with tree := u, mounts := ns.mounts ++ [record] } (done ++ [e]) where
  host := new.host
  number := h.number
  there := new.there
  isOpen := h.isOpen
  sound := new.sound
  apart := new.apart
  listed := by simp [h.listed, new.point, new.source]
  seen := by
    intro names other hother
    rcases (new.view names other).1 hother with ⟨hfold, -⟩ | ⟨-, hold⟩
    · exact ⟨e, by simp, hfold⟩
    · obtain ⟨earlier, hearlier, hfold⟩ := h.seen names other hold
      exact ⟨earlier, List.mem_append_left _ hearlier, hfold⟩
  shown := by
    intro before other after hcut hclear
    rw [new.volumes]
    rcases concat_eq_cut.1 hcut with ⟨-, rfl, rfl⟩ | ⟨between, rfl, hdone⟩
    · -- the entry itself
      exact ⟨record, w.volumes.size, (new.view _ _).2 (.inl ⟨rfl, rfl⟩), new.source, Array.getElem?_push_size⟩
    · -- an earlier entry that this one does not hide either
      have hbetween : ∀ later ∈ between, other.path.startsWith later.path = false := by
        intro later hlater
        exact hclear later (by simp [hlater])
      have hbeside : ¬ foldNames e.path.names <+: foldNames other.path.names := by
        intro hpre
        have hstarts := (other.startsWith_iff e).2 hpre
        rw [hclear e (by simp)] at hstarts
        cases hstarts
      obtain ⟨shown, n, hmount, hsource, hvolume⟩ := h.shown before other between hdone hbetween
      obtain ⟨hn, -⟩ := Array.getElem?_eq_some_iff.1 hvolume
      refine ⟨shown, n, (new.view _ _).2 (.inr ⟨hbeside, hmount⟩), hsource, ?_⟩
      rw [Array.getElem?_push, if_neg (Nat.ne_of_lt hn)]
      exact hvolume

/-- entries that lie neither at nor below earlier ones are all followed, in order -/
theorem Followed.mountAll (entries : List (Mountable host id)) (h : w.Followed ns done)
    (hapart : (done ++ entries).Pairwise fun e later => later.path.startsWith e.path = false) :
    ∃ w' ns', World.mountAll id (entries.map Mountable.setting) w = (.ok (), w') ∧
      w'.Followed ns' (done ++ entries) := by
  induction entries generalizing w ns done with
  | nil => exact ⟨w, ns, rfl, by rwa [List.append_nil]⟩
  | cons e rest ih =>
    have hone : ∀ earlier ∈ done, e.path.startsWith earlier.path = false := by
      intro earlier hearlier
      exact (List.pairwise_append.1 hapart).2.2 earlier hearlier e (by simp)
    obtain ⟨mid, record, u, hmid, new⟩ := h.added e hone
    have hcut : done ++ e :: rest = (done ++ [e]) ++ rest := by simp
    rw [hcut] at hapart ⊢
    obtain ⟨w', ns', hrest, hall⟩ := ih (new.followed h) hapart
    refine ⟨w', ns', ?_, hall⟩
    rw [List.map_cons, World.mountAll, hmid]
    exact hrest

end Steps

/-- a new namespace has nothing mounted -/
theorem followed_new {w : World} {settings : Settings} {start : Time}
    (hnew : w.namespace? id = some (.new id settings start)) :
    w.Followed (.new id settings start) ([] : List (Mountable w.host id)) where
  host := rfl
  number := rfl
  there := hnew
  isOpen := rfl
  sound := Tree.sound_withRoot _
  apart := Namespace.apart_new id settings start
  listed := rfl
  seen := by
    rintro names record ⟨v, s, -, hact⟩
    cases v with
    | zero => cases hact
    | succ v => cases hact
  shown := by simp

/-- **Everything that is configured is mounted.** Take a new namespace in any world, and settings that list directories
of the host, each with a path below the root that lies neither at nor below that of an earlier one, apart from case.
Then mounting what is configured succeeds. The mounts of the namespace are those of the list, each at its path and from
the root of a filesystem, in order, and every path that no later one hides leads to a mount of a view of its directory,
by the physical path of this. -/
theorem everything_mounted {w : World} {settings : Settings} {start : Time}
    (hnew : w.namespace? id = some (.new id settings start)) (entries : List (Mountable w.host id))
    (hlist : settings.mounts = entries.map Mountable.setting)
    (hapart : entries.Pairwise fun e later => later.path.startsWith e.path = false) :
    ∃ w' ns, w.mountConfigured id = (.ok (), w') ∧ w'.namespace? id = some ns ∧
      ns.mounts.map (fun r => (r.point, r.source.path)) = entries.map (fun e => (e.path, .rootPath)) ∧
      ∀ before e after, entries = before ++ e :: after →
        (∀ later ∈ after, e.path.startsWith later.path = false) →
          ∃ v m n, ns.place w'.external e.path = .ok (.mount v m) ∧ m.record.source = ⟨.volume n, .rootPath⟩ ∧
            w'.volumes[n]? = some (.directory (.ofNames e.root)) := by
  obtain ⟨w', ns, hmounted, all⟩ := (followed_new hnew).mountAll entries hapart
  rw [List.nil_append] at all
  obtain rfl := all.number
  refine ⟨w', ns, ?_, all.there, all.listed, ?_⟩
  · rw [mountConfigured, hnew]
    simp only [Namespace.new, hlist]
    exact hmounted
  · intro before e after hcut hclear
    obtain ⟨record, n, hmount, hsource, hvolume⟩ := all.shown before e after hcut hclear
    obtain ⟨v, m, hr, rfl⟩ := hmount.resolve w'.external
    refine ⟨v, m, n, ?_, hsource, hvolume⟩
    rw [Namespace.place_own all.isOpen w'.external e.owner]
    exact hr

/-- two directories and a link to one of them -/
def linkedHost : Host where
  entries := [([], .directory 0), ([Text.encode "data"], .directory 0), ([Text.encode "music"], .directory 0),
    ([Text.encode "songs"], .link (.ofString "music") 0)]

/-- three mounts, of which the second is above the first and the third beside them -/
def mediaEntries : List (Mountable linkedHost 1) := [
  ⟨⟨.ofString "/data", "/media/a"⟩, ⟨1, ["media", "a"]⟩, [Text.encode "data"], by cbv, rfl, by cbv, 0, by cbv⟩,
  ⟨⟨.ofString "/songs", "/Media"⟩, ⟨1, ["Media"]⟩, [Text.encode "music"], by cbv, rfl, by cbv, 0, by cbv⟩,
  ⟨⟨.ofString "/data", "/home"⟩, ⟨1, ["home"]⟩, [Text.encode "data"], by cbv, rfl, by cbv, 0, by cbv⟩]

/-- the settings that list them -/
def mediaSettings : Settings := { mounts := mediaEntries.map Mountable.setting }

/-- a new namespace with these settings -/
def mediaWorld : World := ({ new 0 with host := linkedHost }.createNamespace mediaSettings).2

/-- the mount above another one is in view, and shows what the link leads to -/
theorem media_mounted : mediaWorld.namespace? 1 = some (.new 1 mediaSettings 0) ∧
    mediaEntries.Pairwise (fun e later => later.path.startsWith e.path = false) ∧
    ∃ w' ns, mediaWorld.mountConfigured 1 = (.ok (), w') ∧ w'.namespace? 1 = some ns ∧
      ns.mounts.map (fun r => (r.point, r.source.path)) =
        [(⟨1, ["media", "a"]⟩, .rootPath), (⟨1, ["Media"]⟩, .rootPath), (⟨1, ["home"]⟩, .rootPath)] ∧
      ∃ v m n, ns.place w'.external ⟨1, ["Media"]⟩ = .ok (.mount v m) ∧ m.record.source = ⟨.volume n, .rootPath⟩ ∧
        w'.volumes[n]? = some (.directory (.ofNames [Text.encode "music"])) := by
  have hnew : mediaWorld.namespace? 1 = some (.new 1 mediaSettings 0) := rfl
  have hapart : mediaEntries.Pairwise fun e later => later.path.startsWith e.path = false := by decide
  obtain ⟨w', ns, hmounted, hns, hlisted, hshown⟩ := everything_mounted hnew mediaEntries rfl hapart
  refine ⟨hnew, hapart, w', ns, hmounted, hns, hlisted, ?_⟩
  have hclear : ∀ later ∈ [mediaEntries[2]], AbsolutePath.startsWith ⟨1, ["Media"]⟩ later.path = false := by decide
  exact hshown [mediaEntries[0]] mediaEntries[1] [mediaEntries[2]] rfl hclear

end World

end MountSpace

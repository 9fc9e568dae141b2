/-
One tree shown from memory or from the host. Two sets of filesystems are exchanged behind a mount if they answer the same
there, or if one is a store in memory and the other its twin on the host, with a source that stands for one directory
(`Exchanged`). Then a walk goes as far over the one as over the other, and misses the same names (`walk_exchanged`),
although a store tells of a missing path and the host of a missing name or of one asked below a file. What is found tells
the same kinds, sizes, names and bytes (`exchange_exact`).

One error is left to the host. A name that it cannot be asked for where it would stand is missing in memory, and the host
tells that the name or the path to it is too long, or that it holds a zero byte; the namespace hands that on as it is
(`Parts`, `long_name_parts`).
-/
import MountSpace.Proofs.Host.Twins

namespace MountSpace

/-- what an object is and how large, without its times -/
def Attributes.outline (a : Attributes) : FileKind × Nat := (a.kind, a.size)

/-- two filesystems tell the same of what is at a path -/
structure Filesystem.TellAlike (fs fs' : Filesystem) (path : FsPath) : Prop where
  list : SameReading (fs.readdir path) (fs'.readdir path)
  attributes : SameReading ((fs.getattr path).map Attributes.outline) ((fs'.getattr path).map Attributes.outline)
  content : ∀ a, fs.getattr path = .ok a → a.kind ≠ .directory →
    ∃ counts : Nat → Prop, (∀ position < 1 <<< 63, counts position) ∧ ReadsAlike counts (fs.read path) (fs'.read path)

theorem Filesystem.TellAlike.getattr {fs fs' : Filesystem} {path : FsPath} (h : fs.TellAlike fs' path) :
    (∃ a b, fs.getattr path = .ok a ∧ fs'.getattr path = .ok b ∧ a.kind = b.kind ∧ a.size = b.size) ∨
    ∃ e e', fs.getattr path = .error e ∧ fs'.getattr path = .error e' ∧ e.ctorIdx = e'.ctorIdx := by
  have hattributes := h.attributes
  cases hl : fs.getattr path <;> cases hr : fs'.getattr path <;> rw [hl, hr] at hattributes
  · exact .inr ⟨_, _, rfl, rfl, hattributes⟩
  · exact hattributes.elim
  · exact hattributes.elim
  · exact .inl ⟨_, _, rfl, rfl, Prod.ext_iff.1 hattributes⟩

/-- behind a place, the same filesystem answers twice, or a store in memory and then its twin on the host -/
inductive Exchanged (ext ext' : External) (at_ : ExternalPath) : Prop where
  | same (answers : ext at_.fs = ext' at_.fs)
  | twins {store : MemoryStore} {host : Host} {root : FsPath} {base : HostKey} {key : MemoryKey}
      (trees : Twins store host root base) (memory : ext at_.fs = store.filesystem)
      (onHost : ext' at_.fs = host.view root) (meets : Meets store host root base at_.path key)

/-- the host shown at a place cannot be asked for a name in the directory it comes to there -/
def Unasked (ext : External) (at_ : ExternalPath) (name : String) : Prop :=
  ∃ (host : Host) (root : FsPath) (directory : HostKey), ext at_.fs = host.view root ∧
    host.Asked root at_.path directory ∧ Host.Unfit directory name

section Exchanged

variable {ext ext' : External} {at_ : ExternalPath} (h : Exchanged ext ext' at_)
include h

theorem Exchanged.tellAlike : (ext at_.fs).TellAlike (ext' at_.fs) at_.path := by
  cases h with
  | same answers =>
    rw [answers]
    exact ⟨.of_eq rfl, .of_eq rfl, fun _ _ _ => ⟨_, fun _ _ => trivial, .refl _⟩⟩
  | @twins store host root base key trees memory onHost meets =>
    rw [memory, onHost]
    refine ⟨meets.readdir trees, ?_, fun a ha hkind => ⟨_, fun _ h => h, meets.content trees ha hkind⟩⟩
    obtain ⟨a, b, ha, hb, hkind, hsize⟩ := meets.getattr trees
    have hleft : store.filesystem.getattr at_.path = .ok a := ha
    have hright : (host.view root).getattr at_.path = .ok b := hb
    rw [hleft, hright]
    exact Prod.ext hkind hsize

/-- one name further on, both have a place, or both lack it in the same words, or the host cannot be asked -/
theorem Exchanged.below {name : String} (hname : nameFault? name = none) :
    (ask (at_.below name) ext = .ok () ∧ ask (at_.below name) ext' = .ok () ∧ Exchanged ext ext' (at_.below name)) ∨
    (∃ e e', ask (at_.below name) ext = .error e ∧ ask (at_.below name) ext' = .error e' ∧
      ∀ path walked, Outline.refusal path walked e = Outline.refusal path walked e') ∨
    (Unasked ext' at_ name ∧ ∃ what e, ask (at_.below name) ext = .error (.notFound what) ∧
      ask (at_.below name) ext' = .error (.system e) ∧ (e = .zeroByte ∨ e = .nameTooLong)) := by
  cases h with
  | same answers =>
    have hask : ask (at_.below name) ext = ask (at_.below name) ext' := by
      simp only [ask, ExternalPath.below, answers]
    cases hq : ask (at_.below name) ext with
    | ok _ => exact .inl ⟨rfl, by rw [← hask, hq], .same answers⟩
    | error e => exact .inr (.inl ⟨e, e, rfl, by rw [← hask, hq], fun _ _ => rfl⟩)
  | @twins store host root base key trees memory onHost meets =>
    have hleft : ask (at_.below name) ext = tell (store.getattr (at_.path.joinName name)) := by
      simp only [ask, ExternalPath.below, memory]
      rfl
    have hright : ask (at_.below name) ext' = tell (host.viewGetattr root (at_.path.joinName name)) := by
      simp only [ask, ExternalPath.below, onHost]
      rfl
    rw [hleft, hright]
    cases hentry : store.get? (key ++ [Text.encode name]) with
    | some entry =>
      have hnext := meets.below trees hname hentry
      obtain ⟨a, b, ha, hb, -, -⟩ := hnext.getattr trees
      rw [ha, hb]
      exact .inl ⟨rfl, rfl, .twins trees memory onHost hnext⟩
    | none =>
      obtain ⟨⟨what, hwhat⟩, e, he, hcase⟩ := meets.absent trees hname hentry
      rw [hwhat, he]
      rcases hcase with rfl | rfl | ⟨hunfit, hcase⟩
      · exact .inr (.inl ⟨_, _, rfl, rfl, fun _ _ => rfl⟩)
      · exact .inr (.inl ⟨_, _, rfl, rfl, fun _ _ => rfl⟩)
      · exact .inr (.inr ⟨⟨host, root, base ++ key, onHost, meets.asked trees, hunfit⟩, what, e, rfl, rfl, hcase⟩)

end Exchanged

/-! ## Walks -/

/-- both come to one place, exchanged if it is outside, or fail with one error -/
inductive EndAlike (ext ext' : External) : Except FsError Place → Except FsError Place → Prop where
  | reached {p : Place} (exchanged : ∀ at_, p.external? = some at_ → Exchanged ext ext' at_) :
      EndAlike ext ext' (.ok p) (.ok p)
  | refused (e : FsError) : EndAlike ext ext' (.error e) (.error e)

/-- both find what the first names lead to; the next name is missing for the first, and the second cannot ask for it -/
structure PartAt (ext' : External) (look look' : List String → Except FsError Place) (front : List String)
    (name : String) (rest : List String) : Prop where
  reached : ∃ p at_, look front = .ok p ∧ look' front = .ok p ∧ p.external? = some at_ ∧ Unasked ext' at_ name
  missed : ∃ what, look (front ++ name :: rest) = .error (.notFound what)
  unasked : ∃ e, look' (front ++ name :: rest) = .error (.system e) ∧ (e = .zeroByte ∨ e = .nameTooLong)

namespace Tree

variable {t : Tree} {ext ext' : External} {path : AbsolutePath}

/-- **Walks over the one and over the other go side by side**, up to a name that the host cannot be asked for. -/
theorem walk_exchanged {place : Place} {at_ : ExternalPath} (hplace : place.external? = some at_)
    (h : Exchanged ext ext' at_) {names : List String} (hvalid : ∀ n ∈ names, nameFault? n = none)
    (walked : List String) :
    EndAlike ext ext' (t.walk ext path walked place names) (t.walk ext' path walked place names) ∨
    ∃ front name rest, names = front ++ name :: rest ∧
      PartAt ext' (t.walk ext path walked place) (t.walk ext' path walked place) front name rest := by
  induction names generalizing walked place at_ with
  | nil =>
    refine .inl (.reached fun there hthere => ?_)
    rw [hplace] at hthere
    cases hthere
    exact h
  | cons name rest ih =>
    rw [List.forall_mem_cons] at hvalid
    have hasks := Place.asks_of_external hplace hvalid.1
    have hstep := step_eq_told t path walked hasks
    rcases h.below hvalid.1 with ⟨hl, hr, hnext⟩ | ⟨e, e', hl, hr, hwords⟩ | ⟨hunasked, what, e, hl, hr, he⟩
    · -- both go on from the same place
      have hgoes : ∀ more, t.walk ext path walked place (name :: more) =
            t.walk ext path (walked ++ [name]) (.real name (at_.below name)) more ∧
          t.walk ext' path walked place (name :: more) =
            t.walk ext' path (walked ++ [name]) (.real name (at_.below name)) more := by
        intro more
        rw [walk, walk, hstep, hstep, hl, hr]
        exact ⟨rfl, rfl⟩
      rw [(hgoes rest).1, (hgoes rest).2]
      have hbelow : (Place.real name (at_.below name)).external? = some (at_.below name) := rfl
      rcases ih hbelow hnext hvalid.2 (walked ++ [name]) with halike | ⟨front, last, more, rfl, hpart⟩
      · exact .inl halike
      · refine .inr ⟨name :: front, last, more, rfl, ?_, ?_, ?_⟩
        · rw [(hgoes front).1, (hgoes front).2]
          exact hpart.reached
        · rw [List.cons_append, (hgoes _).1]
          exact hpart.missed
        · rw [List.cons_append, (hgoes _).2]
          exact hpart.unasked
    · rw [walk, walk, hstep, hstep, hl, hr, descendTold, descendTold, hwords]
      exact .inl (.refused _)
    · refine .inr ⟨[], name, rest, rfl, ⟨place, at_, rfl, rfl, hplace, hunasked⟩, ?_, ?_⟩
      · rw [List.nil_append, walk, hstep, hl]
        exact ⟨_, rfl⟩
      · rw [List.nil_append, walk, hstep, hr]
        refine ⟨e, ?_, he⟩
        rcases he with rfl | rfl <;> rfl

/-- so do the paths of a tree in which every mount is exchanged -/
theorem resolve_exchanged (h : ∀ v m, t.node? v = some (.mount m) → Exchanged ext ext' m.record.source)
    (hvalid : ∀ n ∈ path.names, nameFault? n = none) :
    EndAlike ext ext' (t.resolve ext path) (t.resolve ext' path) ∨
    ∃ front name rest, path.names = front ++ name :: rest ∧
      PartAt ext' (fun names => t.resolve ext ⟨path.owner, names⟩) (fun names => t.resolve ext' ⟨path.owner, names⟩)
        front name rest := by
  cases hroot : t.node? t.root with
  | none =>
    simp only [resolve, hroot]
    exact .inl (.refused _)
  | some root =>
    rcases resolve_cases hroot path with
      ⟨v, n, -, hn, hend⟩ | ⟨walked, hend⟩ | ⟨first, back, v, m, hcut, -, hv, hm, hend⟩
    · rw [hend, hend]
      refine .inl (.reached fun at_ hat => ?_)
      cases n with
      | directory d => cases hat
      | mount m =>
        cases hat
        exact h v m hn
    · rw [hend, hend]
      exact .inl (.refused _)
    · -- the mount takes what is left of the names, over both
      rw [hend, hend]
      have hback : ∀ n ∈ back, nameFault? n = none := fun n hn => hvalid n (hcut ▸ List.mem_append_right _ hn)
      have hsource : (Place.mount v m).external? = some m.record.source := rfl
      rcases walk_exchanged hsource (h v m hm) hback first with halike | ⟨front, name, rest, rfl, hpart⟩
      · exact .inl halike
      · have hpath : ∀ ext, t.resolve ext ⟨path.owner, first ++ (front ++ name :: rest)⟩ =
            t.walk ext path first (.mount v m) (front ++ name :: rest) := by
          intro ext
          rw [← hcut, ← hv.resolve_handed hm hcut]
        refine .inr ⟨first ++ front, name, rest, by rw [hcut, List.append_assoc], ?_, ?_, ?_⟩
        · obtain ⟨p, at_, hp, hp', hreached⟩ := hpart.reached
          have hfront : ∀ ext, t.resolve ext ⟨path.owner, first ++ front⟩ =
              t.walk ext ⟨path.owner, first ++ front⟩ first (.mount v m) front := hv.resolve_handed hm rfl
          exact ⟨p, at_, (hfront ext).trans (walk_ok_path hp _ _), (hfront ext').trans (walk_ok_path hp' _ _), hreached⟩
        · rw [List.append_assoc, hpath]
          exact hpart.missed
        · rw [List.append_assoc, hpath]
          exact hpart.unasked

end Tree

/-! ## Readings -/

namespace Namespace

variable {ns : Namespace} {ext ext' : External} {path : AbsolutePath}

/-- the namespace tells the same of a path over both -/
structure ShowsAlike (ns : Namespace) (ext ext' : External) (path : AbsolutePath) : Prop where
  list : SameReading (ns.listDirectory ext path) (ns.listDirectory ext' path)
  attributes : SameReading ((ns.readAttributes ext path).map Attributes.outline)
    ((ns.readAttributes ext' path).map Attributes.outline)
  content : SameReading (ns.readAll ext path) (ns.readAll ext' path)
  opened : ∀ flags, SameReading (ns.openRead ext path flags) (ns.openRead ext' path flags)
  /-- an open file answers the same to whatever is done with it -/
  used : ∀ flags channel, ns.openRead ext path flags = .ok channel → ∀ acts, Channel.Below (1 <<< 63) acts →
    channel.play ext acts = channel.play ext' acts

/-- nothing can be read at a path, nor opened, for one reason -/
structure Fails (ns : Namespace) (ext : External) (path : AbsolutePath) (e : FsError) : Prop extends
    ns.Refuses ext path e where
  opened : ∀ flags, ns.openRead ext path flags = .error e

/-- the path comes to a name that the host cannot be asked for: it is missing in memory, and the host tells why -/
def Parts (ns : Namespace) (ext ext' : External) (path : AbsolutePath) : Prop :=
  ∃ front name rest, path.names = front ++ name :: rest ∧
    (∃ place at_, ns.place ext ⟨path.owner, front⟩ = .ok place ∧ ns.place ext' ⟨path.owner, front⟩ = .ok place ∧
      place.external? = some at_ ∧ Unasked ext' at_ name) ∧
    (∃ what, ns.Fails ext path (.notFound what)) ∧
    ∃ e, ns.Fails ext' path (.system e) ∧ (e = .zeroByte ∨ e = .nameTooLong)

theorem fails_of_place {e : FsError} (h : ns.place ext path = .error e) : ns.Fails ext path e :=
  ⟨refuses_of_place h, fun flags => by rw [openRead, h]⟩

section Reached

variable {p : Place} (hp : ns.place ext path = .ok p) (hp' : ns.place ext' path = .ok p)
  (h : ∀ at_, p.external? = some at_ → (ext at_.fs).TellAlike (ext' at_.fs) at_.path)
include hp hp' h

theorem listDirectory_alike : SameReading (ns.listDirectory ext path) (ns.listDirectory ext' path) := by
  cases hat : p.external? with
  | none =>
    cases p with
    | directory v d =>
      rw [listDirectory, listDirectory, hp, hp']
      exact .of_eq rfl
    | mount v m => cases hat
    | real name at_ => cases hat
  | some at_ =>
    rw [listDirectory_external hp hat, listDirectory_external hp' hat]
    exact (h at_ hat).list

theorem readAttributes_alike : SameReading ((ns.readAttributes ext path).map Attributes.outline)
    ((ns.readAttributes ext' path).map Attributes.outline) := by
  cases p with
  | directory v d =>
    rw [readAttributes, readAttributes, hp, hp']
    exact .of_eq rfl
  | mount v m =>
    rw [readAttributes, readAttributes, hp, hp']
    exact .of_eq rfl
  | real name at_ =>
    rw [readAttributes_real hp, readAttributes_real hp']
    exact (h at_ rfl).attributes

theorem openRead_alike (flags : OpenFlags) :
    SameReading (ns.openRead ext path flags) (ns.openRead ext' path flags) := by
  rw [openRead, openRead, hp, hp']
  by_cases hmodify : flags.requestsModification = true
  · simp only [hmodify, if_true]
    exact .of_eq rfl
  · simp only [if_neg hmodify]
    cases p with
    | directory v d => exact .of_eq rfl
    | mount v m => exact .of_eq rfl
    | real name at_ =>
      rcases (h at_ rfl).getattr with ⟨a, b, ha, hb, hkind, hsize⟩ | ⟨e, e', he, he', hsame⟩
      · simp only [ha, hb, hkind, hsize]
        exact .of_eq rfl
      · simp only [he, he']
        exact hsame

theorem play_opened {flags : OpenFlags} {channel : Channel} (hopen : ns.openRead ext path flags = .ok channel)
    {acts : List ChannelAct} (hacts : Channel.Below (1 <<< 63) acts) :
    channel.play ext acts = channel.play ext' acts := by
  obtain ⟨name, at_, a, hplace, ha, hkind, rfl⟩ := openRead_eq_ok hopen
  rw [hp] at hplace
  cases hplace
  obtain ⟨counts, hcounts, hread⟩ := (h at_ rfl).content a ha hkind
  exact Channel.play_alike hread (fun position hm => hcounts position (hacts position hm)) rfl (hcounts 0 (by decide))

/-- all content is what an open file answers when it is read to the end -/
theorem readAll_alike : SameReading (ns.readAll ext path) (ns.readAll ext' path) := by
  have hopen := openRead_alike hp hp' h .reading
  rw [readAll, readAll]
  cases hl : ns.openRead ext path .reading with
  | error e =>
    cases hr : ns.openRead ext' path .reading with
    | error e' =>
      rw [hl, hr] at hopen
      exact hopen
    | ok channel =>
      rw [hl, hr] at hopen
      exact hopen.elim
  | ok channel =>
    have hbelow : Channel.Below (1 <<< 63) [.readToEnd] := fun position hm => by simp at hm
    have hread := play_opened hp hp' h hl hbelow
    cases hr : ns.openRead ext' path .reading with
    | error e =>
      rw [hl, hr] at hopen
      exact hopen.elim
    | ok other =>
      rw [hl, hr] at hopen
      obtain rfl : channel = other := hopen
      exact .of_eq (List.singleton_inj.1 hread)

end Reached

theorem showsAlike_of_ends (h : EndAlike ext ext' (ns.place ext path) (ns.place ext' path)) :
    ns.ShowsAlike ext ext' path := by
  generalize hp : ns.place ext path = r at h
  generalize hp' : ns.place ext' path = r' at h
  cases h with
  | refused e =>
    have hl := fails_of_place hp
    have hr := fails_of_place hp'
    refine ⟨?_, ?_, ?_, fun flags => ?_, fun flags channel hopen => ?_⟩
    · rw [hl.list, hr.list]
      exact .of_eq rfl
    · rw [hl.attributes, hr.attributes]
      exact .of_eq rfl
    · rw [hl.content, hr.content]
      exact .of_eq rfl
    · rw [hl.opened, hr.opened]
      exact .of_eq rfl
    · rw [hl.opened] at hopen
      cases hopen
  | reached exchanged =>
    have htell := fun at_ hat => (exchanged at_ hat).tellAlike
    exact ⟨listDirectory_alike hp hp' htell, readAttributes_alike hp hp' htell, readAll_alike hp hp' htell,
      openRead_alike hp hp' htell, fun _ _ hopen _ => play_opened hp hp' htell hopen⟩

/-- **A tree in memory and the same tree on the host show alike.** Where every mount of a namespace shows a store in
memory or its twin on the host, or the same filesystem both times, every path is listed, read, opened and told of alike
over both, present or missing, unless the first name of it that is missing is one that the host cannot be asked for where
it would stand. -/
theorem exchange_exact (hexchanged : ∀ v m, ns.tree.node? v = some (.mount m) → Exchanged ext ext' m.record.source)
    (path : NamedPath) : ns.ShowsAlike ext ext' path.1 ∨ ns.Parts ext ext' path.1 := by
  cases hok : ns.check path.1 with
  | error e =>
    refine .inl (showsAlike_of_ends ?_)
    rw [place, place, hok]
    exact .refused e
  | ok _ =>
    have hplace : ∀ ext names, ns.place ext ⟨path.1.owner, names⟩ = ns.tree.resolve ext ⟨path.1.owner, names⟩ := by
      intro ext names
      have hfront : ns.check ⟨path.1.owner, names⟩ = .ok () := by
        rwa [check_eq_ok] at hok ⊢
      rw [place, hfront]
    rcases Tree.resolve_exchanged hexchanged (checkNames_eq_ok.1 path.2) with halike | ⟨front, name, rest, hcut, hpart⟩
    · refine .inl (showsAlike_of_ends ?_)
      rw [hplace ext path.1.names, hplace ext' path.1.names]
      exact halike
    · obtain ⟨place, at_, hp, hp', hreached⟩ := hpart.reached
      obtain ⟨what, hmissed⟩ := hpart.missed
      obtain ⟨e, hunasked, he⟩ := hpart.unasked
      rw [← hcut] at hmissed hunasked
      exact .inr ⟨front, name, rest, hcut,
        ⟨place, at_, (hplace ext front).trans hp, (hplace ext' front).trans hp', hreached⟩,
        ⟨what, fails_of_place ((hplace ext _).trans hmissed)⟩,
        e, fails_of_place ((hplace ext' _).trans hunasked), he⟩

/-- one file in memory, whichever volume is asked -/
def inMemory : External := fun _ => MemoryStore.oneFile.filesystem

/-- the file in a directory of a host -/
def onHost : External := fun _ =>
  (MemoryStore.oneFile.putBelow [Text.encode "srv"]).view (.ofNames [Text.encode "srv"])

/-- a namespace with a volume mounted in it -/
def withVolume (ext : External) : Namespace :=
  (((new 1 {} 0).createDirectory ext 0 ⟨1, ["a"]⟩).2.mount ext 2 ⟨⟨.volume 0, .rootPath⟩, ⟨1, ["a"]⟩⟩).2

theorem oneFile_twins : Twins .oneFile (MemoryStore.oneFile.putBelow [Text.encode "srv"])
    (.ofNames [Text.encode "srv"]) [Text.encode "srv"] := by
  refine twins_putBelow (MemoryStore.filled_tidy 0 _) ?_ MemoryStore.oneFile_worded ?_ ?_ ?_
  · intro name hname
    rw [List.mem_singleton.1 hname]
    exact ⟨plainBytes_encode (by decide), by decide, by decide⟩
  · intro key entry hentry
    rcases MemoryStore.oneFile_get? hentry with rfl | ⟨rfl, -⟩ <;> decide
  · intro key entry hentry
    rcases MemoryStore.oneFile_get? hentry with rfl | ⟨rfl, -⟩ <;> decide
  · intro key data a hentry
    rcases MemoryStore.oneFile_get? hentry with rfl | ⟨-, b, hfile⟩
    · cases hentry
    · cases hfile
      decide

theorem withVolume_exchanged {v : NodeId} {m : MountNode}
    (hm : (withVolume inMemory).tree.node? v = some (.mount m)) : Exchanged inMemory onHost m.record.source := by
  have hsource : m.record.source = ⟨.volume 0, .rootPath⟩ := by
    match v with
    | 0 => cases hm
    | 1 => cases hm
    | 2 =>
      cases hm
      rfl
    | v + 3 => cases hm
  rw [hsource]
  exact .twins oneFile_twins rfl rfl oneFile_twins.meets_root

/-- the mount comes about in the same way over both -/
theorem withVolume_same : withVolume onHost = withVolume inMemory := by cbv

/-- the same mount over both; the mount, the file, what would be below it and what is missing show alike -/
theorem withVolume_alike : withVolume onHost = withVolume inMemory ∧
    (withVolume inMemory).readAll onHost ⟨1, ["a", "f"]⟩ = .ok ⟨#[1, 2]⟩ ∧
    ∀ names ∈ [["a"], ["a", "f"], ["a", "f", "x"], ["a", "g", "x"]],
      (withVolume inMemory).ShowsAlike inMemory onHost ⟨1, names⟩ := by
  refine ⟨withVolume_same, by cbv, fun names hnames => ?_⟩
  have hvalid : ∀ names ∈ [["a"], ["a", "f"], ["a", "f", "x"], ["a", "g", "x"]], checkNames names = .ok () := by
    decide
  have htold : ∀ names ∈ [["a"], ["a", "f"], ["a", "f", "x"], ["a", "g", "x"]],
      ∀ e, (withVolume inMemory).listDirectory onHost ⟨1, names⟩ ≠ .error (.system e) := by
    have hmount : (withVolume inMemory).listDirectory onHost ⟨1, ["a"]⟩ = .ok [⟨"f", .file⟩] := by cbv
    have hfile : (withVolume inMemory).listDirectory onHost ⟨1, ["a", "f"]⟩ = .error (.notADirectory "/f") := by cbv
    have hbelow : (withVolume inMemory).listDirectory onHost ⟨1, ["a", "f", "x"]⟩ = .error (.notFound "/a/f/x") := by cbv
    have hmissing : (withVolume inMemory).listDirectory onHost ⟨1, ["a", "g", "x"]⟩ = .error (.notFound "/a/g") := by cbv
    simp [hmount, hfile, hbelow, hmissing]
  rcases exchange_exact (fun _ _ => withVolume_exchanged) ⟨⟨1, names⟩, hvalid names hnames⟩ with
    halike | ⟨-, -, -, -, -, -, e, hfails, -⟩
  · exact halike
  · exact absurd hfails.list (htold names hnames e)

/-- a name of 256 bytes -/
def longName : String := String.ofList (List.replicate 256 'n')

set_option maxRecDepth 10000 in
/-- a name that is valid in the namespace is not found in memory, and the host says that it is too long -/
theorem long_name_parts : withVolume onHost = withVolume inMemory ∧
    (∀ v m, (withVolume inMemory).tree.node? v = some (.mount m) → Exchanged inMemory onHost m.record.source) ∧
    checkNames ["a", longName] = .ok () ∧
    (∃ what, (withVolume inMemory).listDirectory inMemory ⟨1, ["a", longName]⟩ = .error (.notFound what)) ∧
    (withVolume inMemory).listDirectory onHost ⟨1, ["a", longName]⟩ = .error (.system .nameTooLong) ∧
    ¬ (withVolume inMemory).ShowsAlike inMemory onHost ⟨1, ["a", longName]⟩ := by
  have hmemory : (withVolume inMemory).listDirectory inMemory ⟨1, ["a", longName]⟩ =
      .error (.notFound ("/a/" ++ longName)) := by cbv
  have hhost : (withVolume inMemory).listDirectory onHost ⟨1, ["a", longName]⟩ = .error (.system .nameTooLong) := by
    cbv
  refine ⟨withVolume_same, fun v m => withVolume_exchanged, by cbv, ⟨_, hmemory⟩, hhost, fun halike => ?_⟩
  have hlist := halike.list
  rw [hmemory, hhost] at hlist
  cases hlist

end Namespace

end MountSpace

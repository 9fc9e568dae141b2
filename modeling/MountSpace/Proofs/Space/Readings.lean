/-
What a path comes to when it is read. Listing, attributes and content are read off the place that the path leads to, and
fail as one if it leads to none. The refusal of a place met on the way is the refusal of every longer path, in the words
of that path (`resolve_longer`). Two readings agree if they give the same content or fail alike (`SameReading`), and nothing
but the filesystems that are mounted in a namespace has a say in what it reads (`filesystem_local`).
-/
import MountSpace.Proofs.Tree.Reaching
import MountSpace.Space.Channel

namespace MountSpace

/-- the same content, or errors of one kind -/
def SameReading {α : Type} : Except FsError α → Except FsError α → Prop
  | .ok a, .ok b => a = b
  | .error e, .error e' => e.ctorIdx = e'.ctorIdx
  | _, _ => False

theorem SameReading.of_eq {α : Type} {r r' : Except FsError α} (h : r = r') : SameReading r r' := by
  subst h
  cases r with
  | ok a => exact Eq.refl a
  | error e => exact Eq.refl e.ctorIdx

theorem SameReading.trans {α : Type} {a b c : Except FsError α} (h : SameReading a b) (h' : SameReading b c) :
    SameReading a c := by
  cases a with
  | ok _ =>
    cases b with
    | ok _ => cases c with
      | ok _ => exact Eq.trans h h'
      | error _ => exact h'.elim
    | error _ => exact h.elim
  | error _ =>
    cases b with
    | ok _ => exact h.elim
    | error _ => cases c with
      | ok _ => exact h'.elim
      | error _ => exact Eq.trans h h'

/-! ## Refusals -/

/-- a refusal is of one kind, whatever its words -/
theorem ctorIdx_refusal (path path' : AbsolutePath) (walked walked' : List String) (e : FsError) :
    (Outline.refusal path walked e).ctorIdx = (Outline.refusal path' walked' e).ctorIdx := by
  unfold Outline.refusal
  split
  · rfl
  · cases e <;> rfl

/-- an error that a mount hands on as one of the same kind -/
def FsError.Stays (e : FsError) : Prop := ∀ path walked, (Outline.refusal path walked e).ctorIdx = e.ctorIdx

/-- what one mount has made of an error the next hands on -/
theorem stays_refusal (path : AbsolutePath) (walked : List String) (e : FsError) :
    (Outline.refusal path walked e).Stays := by
  intro path' walked'
  unfold Outline.refusal
  by_cases h : (e.isNotFound || e.isNotADirectory) = true
  · rw [if_pos h]
    rfl
  · rw [if_neg h]
    cases e with
    | escapesRoot what => rfl
    | permissionDenied what => rfl
    | _ => simp only [if_neg h]

namespace Tree

variable {t : Tree} {ext : External}

/-- a refused step speaks of its path in its refusal alone -/
theorem step_error {path : AbsolutePath} {walked : List String} {name : String} {place : Place} {e : FsError}
    (h : t.step ext path walked name place = .error e) : ∃ told, ∀ path',
      t.step ext path' walked name place = .error (Outline.refusal path' (walked ++ [name]) told) := by
  cases ha : place.asks name with
  | some q =>
    rw [step_eq_told t path walked ha] at h
    cases hq : ask q ext with
    | ok _ =>
      rw [hq] at h
      cases h
    | error told => exact ⟨told, fun path' => by rw [step_eq_told t path' walked ha, hq]; rfl⟩
  | none =>
    rcases place with ⟨id, dir⟩ | ⟨id, m⟩ | ⟨nm, at_⟩
    · cases hc : t.child? id name with
      | none => exact ⟨.notFound "", fun path' => by simp only [Tree.step, hc]; rfl⟩
      | some c =>
        simp only [Tree.step, hc] at h
        cases h
    · rw [Place.asks, Option.map_eq_none_iff] at ha
      exact ⟨.permissionDenied "", fun path' => by simp only [Tree.step, ha]; rfl⟩
    · cases ha

/-- a refused walk has come as far as the name before the one it is refused at, whatever follows -/
theorem walk_stops {path : AbsolutePath} {names walked : List String} {place : Place} {e : FsError}
    (h : t.walk ext path walked place names = .error e) : ∃ front name rest told, names = front ++ [name] ++ rest ∧
      (∃ p, t.walk ext path walked place front = .ok p) ∧ ∀ path' rest',
        t.walk ext path' walked place (front ++ [name] ++ rest') =
          .error (Outline.refusal path' (walked ++ front ++ [name]) told) := by
  induction names generalizing walked place with
  | nil => cases h
  | cons name rest ih =>
    cases hs : t.step ext path walked name place with
    | error told =>
      obtain ⟨told, hstep⟩ := step_error hs
      refine ⟨[], name, rest, told, rfl, ⟨place, rfl⟩, ?_⟩
      intro path' rest'
      rw [List.nil_append, List.singleton_append, Tree.walk, hstep, List.append_nil]
    | ok next =>
      rw [Tree.walk, hs] at h
      obtain ⟨front, last, after, told, rfl, ⟨p, hp⟩, hstop⟩ := ih h
      refine ⟨name :: front, last, after, told, rfl, ⟨p, walk_cons_eq_ok.2 ⟨next, hs, hp⟩⟩, ?_⟩
      intro path' rest'
      have hstep : t.step ext path' walked name place = .ok next := step_eq_ok.2 (step_eq_ok.1 hs)
      rw [List.cons_append, List.cons_append, Tree.walk, hstep]
      simpa using hstop path' rest'

/-- the words of a refused walk are those of the path it is walked for, and nothing else changes with the path -/
theorem walk_error {path : AbsolutePath} {names walked : List String} {place : Place} {e : FsError}
    (h : t.walk ext path walked place names = .error e) : ∃ walked' told, ∀ path',
      t.walk ext path' walked place names = .error (Outline.refusal path' walked' told) := by
  obtain ⟨front, name, rest, told, rfl, -, hstop⟩ := walk_stops h
  exact ⟨walked ++ front ++ [name], told, fun path' => hstop path' rest⟩

/-- the refusal of a path is that of every longer one, and the next mount would hand it on -/
theorem resolve_longer {path longer : AbsolutePath} {rest : List String} {e : FsError}
    (h : t.resolve ext path = .error e) (hnames : longer.names = path.names ++ rest) :
    e.Stays ∧ ∃ e', t.resolve ext longer = .error e' ∧ e'.ctorIdx = e.ctorIdx := by
  rw [Tree.resolve] at h ⊢
  cases hroot : t.node? t.root with
  | none =>
    rw [hroot] at h
    cases h
    exact ⟨fun _ _ => rfl, _, rfl, rfl⟩
  | some root =>
    simp only [hroot] at h ⊢
    obtain ⟨walked, told, hwords⟩ := walk_error h
    rw [hwords] at h
    cases h
    refine ⟨stays_refusal path walked told, Outline.refusal longer walked told, ?_, ctorIdx_refusal ..⟩
    rw [hnames, walk_append, hwords]

/-! ## Which filesystems have a say -/

/-- two sets of answers that are the same for what is mounted in the tree -/
def SameAnswers (t : Tree) (ext ext' : External) : Prop :=
  ∀ v m, t.node? v = some (.mount m) → ext m.record.source.fs = ext' m.record.source.fs

theorem asks_fs {place : Place} {at_ q : ExternalPath} {name : String} (hplace : place.external? = some at_)
    (hq : place.asks name = some q) : q.fs = at_.fs := by
  rcases place with ⟨id, dir⟩ | ⟨id, m⟩ | ⟨nm, there⟩
  · cases hplace
  · cases hplace
    obtain ⟨path, -, rfl⟩ := Option.map_eq_some_iff.1 hq
    rfl
  · cases hplace
    cases hq
    rfl

/-- outside, a walk stays in one filesystem and asks that one alone -/
theorem walk_outside_local {ext' : External} {path : AbsolutePath} {names walked : List String} {place : Place}
    {at_ : ExternalPath} (hplace : place.external? = some at_) (hsame : ext at_.fs = ext' at_.fs) :
    t.walk ext path walked place names = t.walk ext' path walked place names ∧
      ∀ p, t.walk ext path walked place names = .ok p → ∃ there, p.external? = some there ∧ there.fs = at_.fs := by
  induction names generalizing walked place at_ with
  | nil =>
    refine ⟨rfl, fun p hp => ?_⟩
    cases hp
    exact ⟨at_, hplace, rfl⟩
  | cons name rest ih =>
    have hstep : t.step ext path walked name place = t.step ext' path walked name place := by
      cases hq : place.asks name with
      | none => exact step_of_asks_none t path walked hq ext ext'
      | some q =>
        rw [step_eq_told t path walked hq, step_eq_told t path walked hq, ask, ask, asks_fs hplace hq, hsame]
    rw [Tree.walk, Tree.walk, ← hstep]
    cases hs : t.step ext path walked name place with
    | error e => exact ⟨rfl, fun p hp => by cases hp⟩
    | ok next =>
      rcases step_eq_ok.1 hs with ⟨id, dir, child, node, rfl, -, -⟩ | ⟨q, hq, -, rfl⟩
      · cases hplace
      · have hfs := asks_fs hplace hq
        have hreal : (Place.real name q).external? = some q := rfl
        obtain ⟨heq, hend⟩ := ih hreal (by rw [hfs, hsame])
        refine ⟨heq, fun p hp => ?_⟩
        obtain ⟨there, hthere, hthen⟩ := hend p hp
        exact ⟨there, hthere, hthen.trans hfs⟩

theorem resolve_local {ext' : External} (hsame : t.SameAnswers ext ext') (path : AbsolutePath) :
    t.resolve ext path = t.resolve ext' path := by
  cases hroot : t.node? t.root with
  | none => rw [Tree.resolve, Tree.resolve, hroot]
  | some root =>
    rcases resolve_cases hroot path with
      ⟨v, n, -, -, hend⟩ | ⟨walked, hend⟩ | ⟨front, back, v, m, -, -, -, hm, hend⟩
    · rw [hend, hend]
    · rw [hend, hend]
    · rw [hend, hend]
      have hplace : (Place.mount v m).external? = some m.record.source := rfl
      exact (walk_outside_local hplace (hsame v m hm)).1

/-- what a path leads to outside is in a filesystem mounted in the tree -/
theorem resolve_mounted {path : AbsolutePath} {name : String} {at_ : ExternalPath}
    (hr : t.resolve ext path = .ok (.real name at_)) :
    ∃ v m, t.node? v = some (.mount m) ∧ at_.fs = m.record.source.fs := by
  cases hroot : t.node? t.root with
  | none =>
    rw [Tree.resolve, hroot] at hr
    cases hr
  | some root =>
    rcases resolve_cases hroot path with
      ⟨v, n, -, -, hend⟩ | ⟨walked, hend⟩ | ⟨front, back, v, m, -, -, -, hm, hend⟩
    · rw [hend] at hr
      cases n <;> cases hr
    · rw [hend] at hr
      cases hr
    · rw [hend] at hr
      have hplace : (Place.mount v m).external? = some m.record.source := rfl
      have hsame : ext m.record.source.fs = ext m.record.source.fs := rfl
      obtain ⟨there, hthere, hfs⟩ := (walk_outside_local hplace hsame).2 _ hr
      cases hthere
      exact ⟨v, m, hm, hfs⟩

end Tree

theorem Channel.readToEnd_fst (ext : External) (c : Channel) : (c.readToEnd ext).1 =
    if reserveLimit ≤ c.size - c.position then .error noRoom
    else (readOn (fun position => (ext c.source.fs).read c.source.path position readChunk) c.position .empty).1 := by
  unfold readToEnd
  split
  · rfl
  · rfl

namespace Namespace

/-- listing, attributes and reading all fail with one error -/
structure Refuses (ns : Namespace) (ext : External) (path : AbsolutePath) (e : FsError) : Prop where
  list : ns.listDirectory ext path = .error e
  attributes : ns.readAttributes ext path = .error e
  content : ns.readAll ext path = .error e

theorem refuses_of_place {ns : Namespace} {ext : External} {path : AbsolutePath} {e : FsError}
    (h : ns.place ext path = .error e) : ns.Refuses ext path e where
  list := by rw [listDirectory, h]
  attributes := by rw [readAttributes, h]
  content := by rw [readAll, openRead, h]

theorem place_eq_ok {ns : Namespace} {ext : External} {path : AbsolutePath} {place : Place} :
    ns.place ext path = .ok place ↔ ns.check path = .ok () ∧ ns.tree.resolve ext path = .ok place := by
  rw [Namespace.place]
  cases ns.check path <;> simp

/-- an open namespace looks its own paths up in its tree -/
theorem place_own {ns : Namespace} (hopen : ns.isOpen = true) (ext : External) {path : AbsolutePath}
    (howner : path.owner = ns.id) : ns.place ext path = ns.tree.resolve ext path := by
  rw [place, check, if_pos hopen, checkBelongs, if_pos howner]

/-- an open file is at something mounted that is no directory, with nothing read yet -/
theorem openRead_eq_ok {ns : Namespace} {ext : External} {path : AbsolutePath} {flags : OpenFlags} {channel : Channel}
    (h : ns.openRead ext path flags = .ok channel) :
    ∃ name at_ a, ns.place ext path = .ok (.real name at_) ∧ (ext at_.fs).getattr at_.path = .ok a ∧
      a.kind ≠ .directory ∧ channel = ⟨at_, a.size, 0⟩ := by
  unfold openRead at h
  split at h
  · cases h
  · next place hp =>
    split at h
    · cases h
    · cases place with
      | directory id dir => cases h
      | mount id m => cases h
      | real name at_ =>
        simp only at h
        split at h
        · cases h
        · next a ha =>
          split at h
          · cases h
          · next hkind =>
            cases h
            exact ⟨name, at_, a, hp, ha, hkind, rfl⟩

theorem readAll_of_open {ns : Namespace} {ext : External} {path : AbsolutePath} {at_ : ExternalPath} {size : Nat}
    (h : ns.openRead ext path .reading = .ok ⟨at_, size, 0⟩) :
    ns.readAll ext path = if reserveLimit ≤ size then .error noRoom
      else (readOn (fun position => (ext at_.fs).read at_.path position readChunk) 0 .empty).1 := by
  rw [readAll, h]
  exact Channel.readToEnd_fst ext ⟨at_, size, 0⟩

variable {ns : Namespace} {ext ext' : External}

/-- a listing outside is the filesystem's -/
theorem listDirectory_external {path : AbsolutePath} {place : Place} {at_ : ExternalPath}
    (hp : ns.place ext path = .ok place) (hat : place.external? = some at_) :
    ns.listDirectory ext path = (ext at_.fs).readdir at_.path := by
  rw [listDirectory, hp]
  rcases place with ⟨id, dir⟩ | ⟨id, m⟩ | ⟨name, there⟩
  · cases hat
  · cases hat
    rfl
  · cases hat
    rfl

theorem readAttributes_real {path : AbsolutePath} {name : String} {at_ : ExternalPath}
    (hp : ns.place ext path = .ok (.real name at_)) : ns.readAttributes ext path = (ext at_.fs).getattr at_.path := by
  rw [readAttributes, hp]

/-- a file of a mounted filesystem opens unless it is a directory -/
theorem openRead_real {path : AbsolutePath} {name : String} {at_ : ExternalPath} {attributes : Attributes}
    (hp : ns.place ext path = .ok (.real name at_)) (ha : (ext at_.fs).getattr at_.path = .ok attributes) :
    ns.openRead ext path .reading =
      if attributes.kind = .directory then .error (.isADirectory path.text) else .ok ⟨at_, attributes.size, 0⟩ := by
  simp only [openRead, hp, ha]
  rfl

/-- only a path that leads nowhere has no attributes -/
theorem place_of_no_attributes {path : AbsolutePath} {e : FsError} (h : ns.readAttributes ext path = .error e) :
    ns.place ext path = .error e := by
  rw [readAttributes] at h
  cases hp : ns.place ext path with
  | error e' =>
    rw [hp] at h
    cases h
    rfl
  | ok place =>
    rw [hp] at h
    rcases place with ⟨id, dir⟩ | ⟨id, m⟩ | ⟨name, at_⟩
    · cases h
    · cases h
    · -- the walk has just been told that the object exists
      have hr := (place_eq_ok.1 hp).2
      have hask : ask at_ ext = .ok () := by
        rw [Tree.resolve] at hr
        split at hr
        · cases hr
        · next node _ =>
          rcases Tree.ask_of_walk_real hr with hstart | hask
          · cases node <;> cases hstart
          · exact hask
      obtain ⟨attributes, ha⟩ := ask_eq_ok.1 hask
      simp only [ha] at h
      cases h

/-- the refusal of a path is that of every longer one, and a mount would hand it on -/
theorem place_longer {path longer : AbsolutePath} {rest : List String} {e : FsError}
    (h : ns.place ext path = .error e) (howner : longer.owner = path.owner)
    (hnames : longer.names = path.names ++ rest) :
    e.Stays ∧ ∃ e', ns.place ext longer = .error e' ∧ e'.ctorIdx = e.ctorIdx := by
  rw [Namespace.place, check, checkBelongs] at h ⊢
  rw [howner]
  split at h
  · next ho =>
    split at ho
    · split at ho
      · cases ho
      · next hopen hforeign =>
        cases ho
        cases h
        rw [if_pos hopen, if_neg hforeign]
        exact ⟨fun _ _ => rfl, _, rfl, rfl⟩
    · next hclosed =>
      cases ho
      cases h
      rw [if_neg hclosed]
      exact ⟨fun _ _ => rfl, _, rfl, rfl⟩
  · next ho =>
    split at ho
    · split at ho
      · next hopen hown =>
        rw [if_pos hopen, if_pos hown]
        exact Tree.resolve_longer h hnames
      · cases ho
    · cases ho

/-- what a path leads to outside is in a filesystem mounted in the namespace -/
theorem place_mounted {path : AbsolutePath} {place : Place} {at_ : ExternalPath} (hp : ns.place ext path = .ok place)
    (hat : place.external? = some at_) :
    ∃ v m, ns.tree.node? v = some (.mount m) ∧ at_.fs = m.record.source.fs := by
  obtain ⟨-, hr⟩ := place_eq_ok.1 hp
  rcases place with ⟨id, dir⟩ | ⟨id, m⟩ | ⟨name, there⟩
  · cases hat
  · cases hat
    exact ⟨id, m, (Tree.finds_mount hr).2, rfl⟩
  · cases hat
    exact Tree.resolve_mounted hr

section Local

variable (hsame : ns.tree.SameAnswers ext ext')
include hsame

theorem place_local (path : AbsolutePath) : ns.place ext path = ns.place ext' path := by
  rw [place, place, Tree.resolve_local hsame]

/-- the filesystem behind a place answers the same -/
theorem place_fs_local {path : AbsolutePath} {place : Place} {at_ : ExternalPath}
    (hp : ns.place ext path = .ok place) (hat : place.external? = some at_) : ext at_.fs = ext' at_.fs := by
  obtain ⟨v, m, hm, hfs⟩ := place_mounted hp hat
  rw [hfs]
  exact hsame v m hm

theorem listDirectory_local (path : AbsolutePath) : ns.listDirectory ext path = ns.listDirectory ext' path := by
  rw [listDirectory, listDirectory, ← place_local hsame]
  cases hp : ns.place ext path with
  | error e => rfl
  | ok place =>
    rcases place with ⟨id, dir⟩ | ⟨id, m⟩ | ⟨name, at_⟩
    · rfl
    · simp only [place_fs_local hsame hp rfl]
    · simp only [place_fs_local hsame hp rfl]

theorem readAttributes_local (path : AbsolutePath) : ns.readAttributes ext path = ns.readAttributes ext' path := by
  rw [readAttributes, readAttributes, ← place_local hsame]
  cases hp : ns.place ext path with
  | error e => rfl
  | ok place =>
    rcases place with ⟨id, dir⟩ | ⟨id, m⟩ | ⟨name, at_⟩
    · rfl
    · rfl
    · simp only [place_fs_local hsame hp rfl]

theorem openRead_local (path : AbsolutePath) (flags : OpenFlags) :
    ns.openRead ext path flags = ns.openRead ext' path flags := by
  rw [openRead, openRead, ← place_local hsame]
  cases hp : ns.place ext path with
  | error e => rfl
  | ok place =>
    rcases place with ⟨id, dir⟩ | ⟨id, m⟩ | ⟨name, at_⟩
    · rfl
    · rfl
    · simp only [place_fs_local hsame hp rfl]

theorem readAll_local (path : AbsolutePath) : ns.readAll ext path = ns.readAll ext' path := by
  rw [readAll, readAll, ← openRead_local hsame]
  cases ho : ns.openRead ext path .reading with
  | error e => rfl
  | ok channel =>
    obtain ⟨name, at_, a, hp, -, -, rfl⟩ := openRead_eq_ok ho
    simp only [Channel.readToEnd_fst, place_fs_local hsame hp rfl]

/-- **A namespace reads from what is mounted in it and from nothing else.** -/
theorem filesystem_local : ns.filesystem ext = ns.filesystem ext' := by
  unfold filesystem
  congr 1
  · funext path
    cases ns.ofFsPath path with
    | error e => rfl
    | ok path => exact readAttributes_local hsame path
  · funext path
    cases ns.ofFsPath path with
    | error e => rfl
    | ok path => exact listDirectory_local hsame path
  · funext path offset size
    cases ns.ofFsPath path with
    | error e => rfl
    | ok path =>
      simp only [← openRead_local hsame]
      cases ho : ns.openRead ext path .reading with
      | error e => rfl
      | ok channel =>
        obtain ⟨name, at_, a, hp, -, -, rfl⟩ := openRead_eq_ok ho
        simp only [Channel.read, Channel.seek, place_fs_local hsame hp rfl]

end Local

end Namespace

end MountSpace

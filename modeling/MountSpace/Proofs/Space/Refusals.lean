/-
What a refused operation leaves behind: nothing. All operations but one change the namespace in a single write, which is
the last thing they do. Making all directories of a path is a loop of look-ups and creations that may stop at any name,
also because a mounted filesystem answers with an error. It stops only before the first creation: once a directory has
been made, the names that are left are looked up below it, where there is nothing yet, and no filesystem is asked.

Filesystems answer as they like, and not the same at each look-up of the loop. So the loop is also written with answers
of its own for each look-up (`createDirectoriesAsking`), and it is the loop of the namespace if they are all the same.

- `alongAsking_bare`: below a new directory the loop makes whatever is left;
- `refused_unchanged`: after any run, an operation that answers an error leaves the namespace as it is.
-/
import MountSpace.Proofs.Space.Whereabouts
import MountSpace.Proofs.Tree.Finding

namespace MountSpace

namespace Namespace

/-! ## Directories along a path -/

/-- the missing directories along the names that are left, where the filesystems have answers of their own for each
look-up: the first at a name asks whether it is there, the second looks for the directory to make it in -/
def createAlongAsking (ext : Nat → External) (now : Time) (walked : List String) :
    List String → Namespace → Except FsError Unit × Namespace
  | [], ns => (.ok (), ns)
  | name :: rest, ns =>
    let here : AbsolutePath := ⟨ns.id, walked ++ [name]⟩
    match ns.tree.resolveOrMissing (ext (2 * walked.length)) here with
    | .error e => (.error e, ns)
    | .ok (some (.directory _ _)) => createAlongAsking ext now (walked ++ [name]) rest ns
    | .ok (some _) =>
      if rest = [] then (.error (.alreadyExists here.text), ns)
      else createAlongAsking ext now (walked ++ [name]) rest ns
    | .ok none =>
      match createDirectory (ext (2 * walked.length + 1)) now here ns with
      | (.ok _, ns) | (.error (.alreadyExists _), ns) => createAlongAsking ext (now + 2) (walked ++ [name]) rest ns
      | (.error e, ns) => (.error e, ns)

/-- a directory and all that are missing above it, with answers for each look-up -/
def createDirectoriesAsking (ext : Nat → External) (now : Time) (path : AbsolutePath) (ns : Namespace) :
    Except FsError Unit × Namespace :=
  match ns.check path with
  | .error e => (.error e, ns)
  | .ok _ => createAlongAsking ext now [] path.names ns

theorem createAlongAsking_const (ext : External) (now : Time) (walked names : List String) (ns : Namespace) :
    createAlongAsking (fun _ => ext) now walked names ns = createAlong ext now walked names ns := by
  induction names generalizing now walked ns with
  | nil => rfl
  | cons name rest ih =>
    rw [createAlongAsking]
    simp only [ih]
    rfl

/-- the loop of the namespace is the one where all look-ups get the same answers -/
theorem createDirectoriesAsking_const (ext : External) (now : Time) (path : AbsolutePath) (ns : Namespace) :
    ns.createDirectoriesAsking (fun _ => ext) now path = ns.createDirectories ext now path := by
  rw [createDirectoriesAsking, createDirectories]
  cases ns.check path with
  | error e => rfl
  | ok _ => exact createAlongAsking_const ext now [] path.names ns

section Creation

variable {ns : Namespace} (before : List String) (name : String)

theorem parent?_snoc : AbsolutePath.parent? ⟨ns.id, before ++ [name]⟩ = some ⟨ns.id, before⟩ := by
  simp [AbsolutePath.parent?]

theorem fileName?_snoc : AbsolutePath.fileName? ⟨ns.id, before ++ [name]⟩ = some name := by
  simp [AbsolutePath.fileName?]

variable (h : ns.tree.Sound)
include h

/-- one new directory is made wherever directories lead to and its name is free, whatever the filesystems answer -/
theorem createDirectory_made (hopen : ns.isOpen = true) {p : NodeId} {d : Directory}
    (way : ns.tree.Finds ns.tree.root before p) (dir : ns.tree.node? p = some (.directory d))
    (free : ns.tree.findChild p name = none) (ext : External) (now : Time) :
    ∃ u, ns.createDirectory ext now ⟨ns.id, before ++ [name]⟩ = (.ok (), { ns with tree := u }) ∧
      ns.tree.Grown p name u ∧ u.Sound := by
  have hr : ns.tree.resolve ext ⟨ns.id, before⟩ = .ok (.directory p d) := Tree.Finds.resolve way dir ext
  have hp := way.attached h.toLinked ((Tree.isAttached_iff _ _).2 (.inl rfl))
  obtain ⟨u, hu⟩ : ∃ u, ns.tree.append p (.directory (.new name now)) (now + 1) = some (ns.tree.nextId, u) := by
    rw [Tree.append, hp, show (Node.directory (.new name now)).name = name from rfl, free]
    exact ⟨_, rfl⟩
  obtain ⟨-, -, -, rfl⟩ := Tree.append_eq_some hu
  refine ⟨_, ?_, Tree.grown_append h.toLinked hu, Tree.sound_append h hp _ _⟩
  have hcheck : ns.check ⟨ns.id, before ++ [name]⟩ = .ok () := check_eq_ok.2 ⟨hopen, rfl⟩
  rw [createDirectory, hcheck, parent?_snoc, fileName?_snoc]
  simp only [hr, hu]

/-- one new directory: refused and nothing changed, or a directory more at the end of the way to its parent -/
theorem createDirectory_cases (ext : External) (now : Time) :
    (∃ e, ns.createDirectory ext now ⟨ns.id, before ++ [name]⟩ = (.error e, ns)) ∨
      ∃ p u, ns.createDirectory ext now ⟨ns.id, before ++ [name]⟩ = (.ok (), { ns with tree := u }) ∧
        ns.isOpen = true ∧ ns.tree.Finds ns.tree.root before p ∧ (∃ d, ns.tree.node? p = some (.directory d)) ∧
        ns.tree.Grown p name u ∧ u.Sound := by
  rw [createDirectory]
  cases hc : ns.check ⟨ns.id, before ++ [name]⟩ with
  | error e => exact .inl ⟨e, rfl⟩
  | ok _ =>
    have hopen := (check_eq_ok.1 hc).1
    rw [parent?_snoc, fileName?_snoc]
    simp only
    cases hr : ns.tree.resolve ext ⟨ns.id, before⟩ with
    | error e => exact .inl ⟨e, rfl⟩
    | ok place =>
      cases place with
      | mount id m => exact .inl ⟨_, rfl⟩
      | real n at_ => exact .inl ⟨_, rfl⟩
      | directory p dir =>
        simp only
        cases hu : ns.tree.append p (.directory (.new name now)) (now + 1) with
        | none => exact .inl ⟨_, rfl⟩
        | some made =>
          obtain ⟨id, u⟩ := made
          obtain ⟨-, hp, -, rfl⟩ := Tree.append_eq_some hu
          obtain ⟨hfinds, hdir⟩ := Tree.finds_directory hr
          exact .inr ⟨p, _, rfl, hopen, hfinds, ⟨dir, hdir⟩, Tree.grown_append h.toLinked hu,
            Tree.sound_append h hp _ _⟩

end Creation

/-- Below a directory with nothing in it, the loop makes all that is left and is never refused. -/
theorem alongAsking_bare {ns : Namespace} (h : ns.tree.Sound) (hopen : ns.isOpen = true) (ext : Nat → External)
    (now : Time) {walked : List String} {p : NodeId} {d : Directory} (way : ns.tree.Finds ns.tree.root walked p)
    (dir : ns.tree.node? p = some (.directory d)) (bare : ns.tree.childrenOf p = []) (names : List String) :
    (createAlongAsking ext now walked names ns).1 = .ok () := by
  induction names generalizing ns walked p d now with
  | nil => rfl
  | cons name rest ih =>
    have free : ns.tree.findChild p name = none := by rw [Tree.findChild, bare]; rfl
    obtain ⟨u, hmade, grown, hu⟩ :=
      createDirectory_made walked name h hopen way dir free (ext (2 * walked.length + 1)) now
    have sound : Tree.Sound ({ ns with tree := u } : Namespace).tree := hu
    obtain ⟨way', d', dir'⟩ := grown.finds h.toLinked way dir
    have next := ih sound hopen (now + 2) way' dir' (grown.bare h.toLinked)
    rw [createAlongAsking, way.missing dir free rfl]
    simp only [hmade]
    exact next

/-- The loop changes nothing if it is refused: it goes on from the first directory it makes to the end. -/
theorem alongAsking_refused {ns last : Namespace} (h : ns.tree.Sound) (ext : Nat → External) (now : Time)
    {walked names : List String} {e : FsError}
    (he : createAlongAsking ext now walked names ns = (.error e, last)) : last = ns := by
  induction names generalizing walked now with
  | nil => cases he
  | cons name rest ih =>
    rw [createAlongAsking] at he
    cases hr : ns.tree.resolveOrMissing (ext (2 * walked.length)) ⟨ns.id, walked ++ [name]⟩ with
    | error refused =>
      rw [hr] at he
      cases he
      rfl
    | ok existing =>
      rw [hr] at he
      cases existing with
      | some place =>
        cases place with
        | directory id dir => exact ih now he
        | mount id m =>
          simp only at he
          split at he
          · cases he
            rfl
          · exact ih now he
        | real n at_ =>
          simp only at he
          split at he
          · cases he
            rfl
          · exact ih now he
      | none =>
        simp only at he
        obtain ⟨refused, hmade⟩ | ⟨p, u, hmade, hopen, way, ⟨d, dir⟩, grown, hu⟩ :=
          createDirectory_cases walked name h (ext (2 * walked.length + 1)) now
        · rw [hmade] at he
          cases refused with
          | alreadyExists what => exact ih (now + 2) he
          | _ =>
            cases he
            rfl
        · rw [hmade] at he
          have sound : Tree.Sound ({ ns with tree := u } : Namespace).tree := hu
          obtain ⟨way', d', dir'⟩ := grown.finds h.toLinked way dir
          have done := alongAsking_bare sound hopen ext (now + 2) way' dir' (grown.bare h.toLinked) rest
          exact absurd ((congrArg Prod.fst he).symm.trans done) nofun

theorem directoriesAsking_refused {ns last : Namespace} (h : ns.tree.Sound) {ext : Nat → External} {now : Time}
    {path : AbsolutePath} {e : FsError} (he : ns.createDirectoriesAsking ext now path = (.error e, last)) :
    last = ns := by
  rw [createDirectoriesAsking] at he
  cases hc : ns.check path with
  | error refused =>
    rw [hc] at he
    cases he
    rfl
  | ok _ =>
    rw [hc] at he
    exact alongAsking_refused h ext now he

/-! ## Every operation -/

/-- an outcome that is not both an error and a change -/
def Intact (ns : Namespace) (outcome : Except FsError Unit × Namespace) : Prop :=
  ∀ e, outcome.1 = .error e → outcome.2 = ns

theorem Intact.error (ns : Namespace) (e : FsError) : ns.Intact (.error e, ns) := fun _ _ => rfl

theorem Intact.ok (ns last : Namespace) : ns.Intact (.ok (), last) := nofun

theorem Does.intact {ns : Namespace} {outcome : Except FsError Unit × Namespace} {deed : Deed}
    (h : ns.Does outcome deed) : ns.Intact outcome := by
  intro e he
  obtain ⟨-, -, same⟩ | ⟨hok, -⟩ := h
  · exact same
  · rw [hok] at he
    cases he

section Operations

variable (ns : Namespace) (ext : External) (now : Time) (path : AbsolutePath)

theorem createDirectory_intact : ns.Intact (ns.createDirectory ext now path) := by
  rw [createDirectory]
  cases ns.check path with
  | error e => exact .error ns e
  | ok _ =>
    rcases path_cases path with ⟨-, hparent, hlast⟩ | ⟨parent, name, -, hparent, hlast⟩
    · rw [hparent, hlast]
      exact .ok ns ns
    · rw [hparent, hlast]
      simp only
      cases ns.tree.resolve ext ⟨path.owner, parent⟩ with
      | error e => exact .error ns e
      | ok place =>
        cases place with
        | mount id m => exact .error ns _
        | real n at_ => exact .error ns _
        | directory id dir =>
          simp only
          cases ns.tree.append id (.directory (.new name now)) (now + 1) with
          | none => exact .error ns _
          | some made => exact .ok ns _

theorem delete_intact : ns.Intact (ns.delete ext now path) := by
  rw [delete]
  cases ns.check path with
  | error e => exact .error ns e
  | ok _ =>
    simp only
    split
    · exact .error ns _
    · cases ns.tree.resolve ext path with
      | error e => exact .error ns e
      | ok place =>
        cases place with
        | mount id m => exact .error ns _
        | real n at_ => exact .error ns _
        | directory id dir =>
          simp only
          cases ns.tree.deleteIfEmpty id now with
          | some tree => exact .ok ns _
          | none =>
            simp only
            split
            · exact .error ns _
            · exact .error ns _

theorem unmount_intact : ns.Intact (ns.unmount ext path) := by
  rw [unmount]
  cases ns.place ext path with
  | error e => exact .error ns e
  | ok place =>
    cases place with
    | directory id dir => exact .error ns _
    | real n at_ => exact .error ns _
    | mount id m =>
      simp only
      cases ns.tree.unmount id with
      | none => exact .error ns _
      | some tree => exact .ok ns _

end Operations

theorem turn_intact {ns : Namespace} (h : ns.tree.Stacked) (turn : Turn) {e : FsError}
    (he : (ns.turn turn).1 = .done (.error e)) : (ns.turn turn).2 = ns := by
  obtain ⟨ext, now, operation⟩ := turn
  cases operation with
  | createDirectory path => exact createDirectory_intact ns ext now path.1 e (Answer.done.inj he)
  | createDirectories path =>
    have loop : ns.createDirectoriesAsking (fun _ => ext) now path.1 =
        (.error e, (ns.createDirectories ext now path.1).2) := by
      rw [createDirectoriesAsking_const]
      exact Prod.ext (Answer.done.inj he) rfl
    exact directoriesAsking_refused h.toSound loop
  | delete path => exact delete_intact ns ext now path.1 e (Answer.done.inj he)
  | rename source target => exact (rename_does h ext now source.1 target.2).intact e (Answer.done.inj he)
  | mount source at_ => exact (mount_does h ext now source at_.1).intact e (Answer.done.inj he)
  | unmount path => exact unmount_intact ns ext path.1 e (Answer.done.inj he)
  | listDirectory path => cases he
  | resolve path => cases he

/-- **What a refused operation leaves behind.** After any run of a fresh namespace, whatever the filesystems answer, an
operation that answers an error leaves the tree, the list of mounts and all else as they were. That holds of the loop
that makes directories also if the filesystems answer anew at each of its look-ups. -/
theorem refused_unchanged (id : NamespaceId) (settings : Settings) (start : Time) (events : List Event) {ns : Namespace}
    (hns : ns = (new id settings start).run events) :
    (∀ (turn : Turn) (e : FsError), (ns.turn turn).1 = .done (.error e) → (ns.turn turn).2 = ns) ∧
    ∀ (ext : Nat → External) (now : Time) (path : AbsolutePath) (e : FsError) (last : Namespace),
      ns.createDirectoriesAsking ext now path = (.error e, last) → last = ns := by
  have hfresh := (good_new id settings start).tree
  have hstacked : ns.tree.Stacked := hns ▸ (run_passes hfresh events).stacked hfresh
  exact ⟨fun turn e he => turn_intact hstacked turn he,
    fun ext now path e last he => directoriesAsking_refused hstacked.toSound he⟩

/-- a volume mounted in a directory -/
def shelved : List Event := [
  .turn ⟨emptyVolumes, 1, .createDirectory (pathOf ["m"] (by decide))⟩,
  .turn ⟨emptyVolumes, 3, .mount ⟨.volume 0, .rootPath⟩ (pathOf ["m"] (by decide))⟩]

/-- filesystems with a fault in every answer -/
def faultyVolumes : External := fun _ =>
  ⟨fun _ => .error (.other "fault"), fun _ => .error (.other "fault"), fun _ _ _ => .error (.other "fault")⟩

/-- a fault behind the mount stops the loop before it has made anything -/
theorem shelved_refused : ∃ last, ((new 1 {} 0).run shelved).createDirectoriesAsking (fun _ => faultyVolumes) 4
      ⟨1, ["m", "b", "c"]⟩ = (.error (.other "fault"), last) ∧ last = (new 1 {} 0).run shelved := by
  obtain ⟨last, hlast⟩ : ∃ last, ((new 1 {} 0).run shelved).createDirectoriesAsking (fun _ => faultyVolumes) 4
      ⟨1, ["m", "b", "c"]⟩ = (.error (.other "fault"), last) := ⟨_, by cbv⟩
  exact ⟨last, hlast, (refused_unchanged 1 {} 0 shelved rfl).2 _ _ _ _ _ hlast⟩

end Namespace

end MountSpace

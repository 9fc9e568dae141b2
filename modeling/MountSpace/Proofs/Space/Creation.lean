/-
What making all directories of a path does. The loop goes past the names that lead to directories. At the first that is
missing it begins to make directories, one in the other, and nothing stops it any more. At a mount it can only come to an
error, at the end of the path or at the first place behind the mount that is missing or refused.

- `createAlong_made`, `createAlong_behind`: the two ways on from where the directories end;
- `createDirectories_exact`: the call succeeds exactly when no name on the way leads to a mount, and what it has made
  then; else what it fails with, which is told by what the whole path leads to.

As long as the mounted filesystems answer as before, all other paths lead where they led. A filesystem that shows this
very namespace again shows the new directories too (`mirrored_shows_new`).
-/
import MountSpace.Proofs.Space.Listing
import MountSpace.Proofs.Space.Refusals
import MountSpace.Proofs.Space.Tandem
import MountSpace.Proofs.Tree.Chains
import MountSpace.Proofs.World.Returning

namespace MountSpace

namespace Namespace

/-- the refusal of a directory to be made in a mounted filesystem -/
def outsideRefusal (path : AbsolutePath) : FsError :=
  .permissionDenied ("cannot create directories inside a mount: " ++ path.text)

/-- the error with which directories are not made at or behind a mount, told by what the path leads to -/
inductive Barred (ns : Namespace) (ext : External) (path : AbsolutePath) : FsError → Prop where
  | taken {place : Place} (leads : ns.place ext path = .ok place) : Barred ns ext path (.alreadyExists path.text)
  /-- the first name on the way that is missing would have to be made outside -/
  | outside {what told : String} {front : List String} (missing : ns.place ext path = .error (.notFound what))
      (way : front <+: path.names) (stops : ns.place ext ⟨ns.id, front⟩ = .error (.notFound told)) :
      Barred ns ext path (outsideRefusal ⟨ns.id, front⟩)
  /-- the refusal of a name on the way, which is that of the path but for its words -/
  | refused {e own : FsError} {front : List String} (refuses : ns.place ext path = .error e)
      (other : ∀ what, e ≠ .notFound what) (way : front <+: path.names)
      (stops : ns.place ext ⟨ns.id, front⟩ = .error own) (kind : own.ctorIdx = e.ctorIdx) : Barred ns ext path own

/-- what is there after the directories of a path have been made, told by what its names led to before -/
structure Completed (ns next : Namespace) (path : AbsolutePath) : Prop where
  /-- nothing but the tree is changed -/
  tree : next = { ns with tree := next.tree }
  directory : ∀ front, front <+: path.names → ∀ later, ∃ v d, next.place later ⟨ns.id, front⟩ = .ok (.directory v d)
  kept : ∀ front earlier place, front <+: path.names → ns.place earlier ⟨ns.id, front⟩ = .ok place →
    ∀ later v d, next.place later ⟨ns.id, front⟩ = .ok (.directory v d) → place.nodeId? = some v
  made : ∀ front earlier e, front <+: path.names → ns.place earlier ⟨ns.id, front⟩ = .error e →
    ∀ later v d, next.place later ⟨ns.id, front⟩ = .ok (.directory v d) → ns.tree.node? v = none ∧
      next.listDirectory later ⟨ns.id, front⟩ = .ok (((path.names.drop front.length).take 1).map .directory)
  vertices : ∀ v, (next.tree.node? v).isSome ↔ (ns.tree.node? v).isSome ∨ ∃ front, front <+: path.names ∧
    (∀ earlier, ∃ e, ns.place earlier ⟨ns.id, front⟩ = .error e) ∧
    ∀ later, ∃ d, next.place later ⟨ns.id, front⟩ = .ok (.directory v d)
  beside : ∀ other : NamedPath, other.1.owner = ns.id → path.startsWith other.1 = false → ∀ earlier later,
    ns.tree.SameAnswers earlier later → SameEnd (ns.place earlier other.1) (next.place later other.1)
  again : ∀ ext now, next.createDirectories ext now path = (.ok (), next)

section Loop

variable {ns : Namespace} {ext : External} {now : Time} {walked : List String} {p : NodeId}

/-- past the directories that are there -/
theorem createAlong_past {front : List String} {v : NodeId} (way : ns.tree.Finds ns.tree.root walked p)
    (on : ns.tree.Finds p front v) (directory : ∃ d, ns.tree.node? v = some (.directory d)) (rest : List String)
    (ext : External) (now : Time) :
    createAlong ext now walked (front ++ rest) ns = createAlong ext now (walked ++ front) rest ns := by
  induction on generalizing walked with
  | here => rw [List.append_nil, List.nil_append]
  | @down id c last d name more node child on ih =>
    have way' := way.snoc node child
    obtain ⟨d', hd'⟩ : ∃ d', ns.tree.node? c = some (.directory d') := by
      cases on with
      | here => exact directory
      | down node' _ _ => exact ⟨_, node'⟩
    have hr : ns.tree.resolve ext ⟨ns.id, walked ++ [name]⟩ = .ok (.directory c d') := Tree.Finds.resolve way' hd' ext
    rw [List.cons_append, createAlong, Tree.resolveOrMissing, hr]
    simp only
    rw [ih way' directory, List.append_assoc, List.singleton_append]

/-- from where a name is missing on, all that is left is made -/
theorem createAlong_made (hopen : ns.isOpen = true) (g : ns.tree.Ground p walked) {names : List String}
    (free : ∀ name ∈ names.head?, ns.tree.findChild p name = none) (ext : External) (now : Time) :
    ∃ u, createAlong ext now walked names ns = (.ok (), { ns with tree := u }) ∧ ns.tree.Chained p names u := by
  induction names generalizing ns now walked p with
  | nil => exact ⟨ns.tree, rfl, .done⟩
  | cons name rest ih =>
    obtain ⟨d, hd⟩ := g.directory
    have hfree : ns.tree.findChild p name = none := free name rfl
    obtain ⟨mid, hmade, grown, sound⟩ := createDirectory_made walked name g.sound hopen g.found hd hfree ext now
    have bare : ∀ other ∈ rest.head?, mid.findChild ns.tree.nextId other = none := by
      intro other _
      rw [Tree.findChild, grown.bare g.sound.toLinked]
      rfl
    have hopen' : ({ ns with tree := mid } : Namespace).isOpen = true := hopen
    have g' : ({ ns with tree := mid } : Namespace).tree.Ground ns.tree.nextId (walked ++ [name]) := g.grown grown sound
    obtain ⟨u, hrest, on⟩ := ih hopen' g' bare (now + 2)
    refine ⟨u, ?_, .more grown sound on⟩
    rw [createAlong, g.found.missing hd hfree rfl]
    simp only [hmade]
    exact hrest

/-- outside no directory is made -/
theorem createDirectory_outside (hopen : ns.isOpen = true) {place : Place} {at_ : ExternalPath}
    (hplace : ns.place ext ⟨ns.id, walked⟩ = .ok place) (hat : place.external? = some at_) (name : String)
    (now : Time) : ns.createDirectory ext now ⟨ns.id, walked ++ [name]⟩ =
      (.error (outsideRefusal ⟨ns.id, walked ++ [name]⟩), ns) := by
  have hparent : ns.tree.resolve ext ⟨ns.id, walked⟩ = .ok place := (place_eq_ok.1 hplace).2
  have hcheck : ns.check ⟨ns.id, walked ++ [name]⟩ = .ok () := check_eq_ok.2 ⟨hopen, rfl⟩
  rw [createDirectory, hcheck, parent?_snoc, fileName?_snoc]
  simp only [hparent]
  rcases place with ⟨id, dir⟩ | ⟨id, m⟩ | ⟨nm, there⟩
  · cases hat
  · rfl
  · rfl

/-- from a place outside on, nothing is made -/
theorem createAlong_behind (hopen : ns.isOpen = true) {place : Place} {at_ : ExternalPath} {names : List String}
    (hplace : ns.place ext ⟨ns.id, walked⟩ = .ok place) (hat : place.external? = some at_) (hne : names ≠ [])
    (hvalid : ∀ n ∈ names, nameFault? n = none) (now : Time) :
    ∃ e, createAlong ext now walked names ns = (.error e, ns) ∧ ns.Barred ext ⟨ns.id, walked ++ names⟩ e := by
  induction names generalizing walked place at_ with
  | nil => exact absurd rfl hne
  | cons name rest ih =>
    obtain ⟨hname, hrest⟩ := List.forall_mem_cons.1 hvalid
    have hcut : walked ++ name :: rest = (walked ++ [name]) ++ rest := by simp
    have hway : walked ++ [name] <+: walked ++ name :: rest := ⟨rest, hcut.symm⟩
    have hhere : ns.tree.resolve ext ⟨ns.id, walked ++ [name]⟩ = ns.place ext ⟨ns.id, walked ++ [name]⟩ := by
      rw [Namespace.place, check_eq_ok.2 ⟨hopen, rfl⟩]
    have hlonger : ∀ e, ns.place ext ⟨ns.id, walked ++ [name]⟩ = .error e → ∃ e',
        ns.place ext ⟨ns.id, walked ++ name :: rest⟩ = .error e' ∧ e'.ctorIdx = e.ctorIdx := by
      intro e he
      refine (place_longer he ?_ hcut).2
      rfl
    rw [createAlong, Tree.resolveOrMissing, hhere]
    cases hp : ns.place ext ⟨ns.id, walked ++ [name]⟩ with
    | ok next =>
      have hstep := place_step hplace name
      rw [Tree.step_eq_told ns.tree _ _ (Place.asks_of_external hat hname), AbsolutePath.below, hp] at hstep
      obtain rfl : next = .real name (at_.below name) := by
        cases hask : ask (at_.below name) ext with
        | error e =>
          rw [hask] at hstep
          cases hstep
        | ok _ =>
          rw [hask] at hstep
          cases hstep
          rfl
      by_cases hlast : rest = []
      · subst hlast
        exact ⟨_, by simp only [if_true], .taken hp⟩
      · obtain ⟨e, he, hbarred⟩ := ih hp rfl hlast hrest
        refine ⟨e, by simp only [if_neg hlast]; exact he, ?_⟩
        rw [hcut]
        exact hbarred
    | error e =>
      obtain ⟨e', he', hkind⟩ := hlonger e hp
      cases e with
      | notFound what =>
        cases e' with
        | notFound what' =>
          refine ⟨_, ?_, .outside he' hway hp⟩
          simp only [createDirectory_outside hopen hplace hat name now]
          rfl
        | _ => cases hkind
      | _ =>
        refine ⟨_, rfl, .refused he' ?_ hway hp hkind.symm⟩
        rintro what rfl
        cases hkind

end Loop

/-! ## Where the directories of a path end -/

section Cases

variable {ns : Namespace} {path : AbsolutePath}

/-- where the directories of a path end at a mount, nothing is made -/
theorem createDirectories_mount (hbare : ns.tree.actAt ns.tree.root = none) (hopen : ns.isOpen = true)
    (howner : path.owner = ns.id) {front back : List String} {v : NodeId} {m : MountNode}
    (way : ns.tree.Finds ns.tree.root front v) (hm : ns.tree.node? v = some (.mount m))
    (hnames : path.names = front ++ back) (hvalid : ∀ n ∈ path.names, nameFault? n = none) (ext : External)
    (now : Time) : ∃ e, ns.createDirectories ext now path = (.error e, ns) ∧ ns.Barred ext path e := by
  obtain ⟨owner, names⟩ := path
  subst howner hnames
  have hne : front ≠ [] := by
    rintro rfl
    cases way
    rw [Tree.actAt, hm] at hbare
    cases hbare
  obtain ⟨above, name, rfl⟩ : ∃ above name, front = above ++ [name] :=
    ⟨_, _, (List.dropLast_concat_getLast hne).symm⟩
  have hplace : ns.place ext ⟨ns.id, above ++ [name]⟩ = .ok (.mount v m) :=
    (place_own hopen ext rfl).trans (Tree.Finds.resolve way hm ext)
  obtain ⟨p, habove, hlast⟩ := Tree.finds_append.1 way
  have hdirectory : ∃ d, ns.tree.node? p = some (.directory d) := by
    cases hlast with
    | down node _ _ => exact ⟨_, node⟩
  have hpast : ns.createDirectories ext now ⟨ns.id, (above ++ [name]) ++ back⟩ =
      createAlong ext now above (name :: back) ns := by
    rw [createDirectories, check_eq_ok.2 ⟨hopen, rfl⟩, List.append_assoc]
    exact createAlong_past .here habove hdirectory (name :: back) ext now
  rw [hpast, createAlong, Tree.resolveOrMissing, (place_eq_ok.1 hplace).2]
  by_cases hback : back = []
  · subst hback
    rw [List.append_nil]
    exact ⟨_, by simp only [if_true], .taken hplace⟩
  · simp only [if_neg hback]
    exact createAlong_behind hopen hplace rfl hback (fun n hn => hvalid n (List.mem_append_right _ hn)) now

/-- the directories of a path end where a name is missing or at the end of the path, and all that is left is made; or
they end at a mount, and nothing is made -/
theorem createDirectories_cases (h : ns.tree.Sound) (ha : ns.tree.Apart) (hbare : ns.tree.actAt ns.tree.root = none)
    (hopen : ns.isOpen = true) (howner : path.owner = ns.id) (hvalid : ∀ n ∈ path.names, nameFault? n = none)
    (ext : External) (now : Time) :
    (∃ front left p u, path.names = front ++ left ∧ ns.tree.Ground p front ∧
      (∀ name ∈ left.head?, ns.tree.findChild p name = none) ∧
      ns.createDirectories ext now path = (.ok (), { ns with tree := u }) ∧ ns.tree.Chained p left u) ∨
    ∃ front v m e, front <+: path.names ∧ ns.tree.Finds ns.tree.root front v ∧ ns.tree.node? v = some (.mount m) ∧
      ns.createDirectories ext now path = (.error e, ns) ∧ ns.Barred ext path e := by
  obtain ⟨root, hroot⟩ := Option.isSome_iff_exists.1 ((ns.tree.node?_isSome _).trans h.rootPresent)
  have hcheck : ns.check path = .ok () := check_eq_ok.2 ⟨hopen, howner⟩
  have made : ∀ {front left p d}, path.names = front ++ left → ns.tree.Finds ns.tree.root front p →
      ns.tree.node? p = some (.directory d) → (∀ name ∈ left.head?, ns.tree.findChild p name = none) →
      ∃ u, ns.createDirectories ext now path = (.ok (), { ns with tree := u }) ∧ ns.tree.Chained p left u := by
    intro front left p d hnames way hd free
    rw [createDirectories, hcheck, hnames]
    simp only
    rw [createAlong_past .here way ⟨d, hd⟩ left ext now, List.nil_append]
    exact createAlong_made hopen ⟨h, ha, way, d, hd⟩ free ext now
  generalize hnames : path.names = names at hvalid
  cases Tree.fate hroot names with
  | @found _ v n finds node =>
    cases n with
    | directory d =>
      have free : ∀ name ∈ ([] : List String).head?, ns.tree.findChild v name = none := by
        intro name hname
        cases hname
      rw [← List.append_nil names] at hnames
      obtain ⟨u, hu, on⟩ := made hnames finds node free
      exact .inl ⟨names, [], v, u, (List.append_nil names).symm, ⟨h, ha, finds, d, node⟩, free, hu, on⟩
    | mount m =>
      have hcut : path.names = names ++ [] := hnames.trans (List.append_nil names).symm
      obtain ⟨e, he, hbarred⟩ := createDirectories_mount hbare hopen howner finds node hcut (hnames ▸ hvalid) ext now
      exact .inr ⟨names, v, m, e, List.prefix_refl _, finds, node, he, hbarred⟩
  | @absent front rest name p d finds node free =>
    have hfree : ∀ other ∈ (name :: rest).head?, ns.tree.findChild p other = none := by
      rintro other hother
      cases hother
      exact free
    obtain ⟨u, hu, on⟩ := made hnames finds node hfree
    exact .inl ⟨front, name :: rest, p, u, rfl, ⟨h, ha, finds, d, node⟩, hfree, hu, on⟩
  | @handed front rest name v m finds node =>
    obtain ⟨e, he, hbarred⟩ := createDirectories_mount hbare hopen howner finds node hnames (hnames ▸ hvalid) ext now
    exact .inr ⟨front, v, m, e, List.prefix_append _ _, finds, node, he, hbarred⟩

end Cases

/-! ## What has been made -/

/-- names along a way that goes on end before it does or beyond -/
theorem before_or_beyond {names front left : List String} (h : names <+: front ++ left) :
    (∃ more, front = names ++ more) ∨ ∃ made, made ≠ [] ∧ made <+: left ∧ names = front ++ made := by
  rcases List.prefix_or_prefix_of_prefix h (List.prefix_append front left) with ⟨more, hmore⟩ | ⟨made, rfl⟩
  · exact .inl ⟨more, hmore.symm⟩
  · cases made with
    | nil => exact .inl ⟨[], by simp⟩
    | cons name rest => exact .inr ⟨_, List.cons_ne_nil _ _, (List.prefix_append_right_inj front).1 h, rfl⟩

section Made

variable {ns : Namespace} {path : AbsolutePath} {front left : List String} {p : NodeId} {u : Tree}
  (hopen : ns.isOpen = true) (howner : path.owner = ns.id) (hnames : path.names = front ++ left)
  (g : ns.tree.Ground p front) (free : ∀ name ∈ left.head?, ns.tree.findChild p name = none)
  (on : ns.tree.Chained p left u)

section Before

include hopen g

/-- a name on the way before the directories end -/
theorem place_before {names more : List String} (hcut : front = names ++ more) :
    ∃ v, ns.tree.Ground v names ∧ ∀ ext, ∃ d, ns.place ext ⟨ns.id, names⟩ = .ok (.directory v d) := by
  obtain ⟨v, hv⟩ := (hcut ▸ g).above
  refine ⟨v, hv, fun ext => ?_⟩
  rw [place_own hopen ext rfl]
  exact hv.resolve rfl ext

include free in
/-- a name on the way after the directories end -/
theorem place_missing {made : List String} (hne : made ≠ []) (hpre : made <+: left) (ext : External) :
    ∃ what, ns.place ext ⟨ns.id, front ++ made⟩ = .error (.notFound what) := by
  obtain ⟨name, more, rfl⟩ := List.exists_cons_of_ne_nil hne
  obtain ⟨rest, hrest⟩ := hpre
  obtain ⟨d, hd⟩ := g.directory
  have hfree : ns.tree.findChild p name = none := free name (by rw [← hrest]; rfl)
  rw [place_own hopen ext rfl]
  exact ⟨_, g.found.resolve_absent hd hfree rfl ext⟩

end Before

section After

variable {names : List String} {later : External} {v : NodeId} {d : Directory}

include hopen hnames g on

/-- a name on the way once all has been made -/
theorem place_made (hpre : names <+: path.names) : ∃ v, u.Ground v names ∧ ∀ ext, ∃ d,
    ({ ns with tree := u } : Namespace).place ext ⟨ns.id, names⟩ = .ok (.directory v d) := by
  obtain ⟨last, hlast⟩ : ∃ last, u.Ground last path.names := hnames ▸ on.ground g
  have hopen' : ({ ns with tree := u } : Namespace).isOpen = true := hopen
  obtain ⟨more, hmore⟩ := hpre
  exact place_before hopen' hlast hmore.symm

variable (hp : ({ ns with tree := u } : Namespace).place later ⟨ns.id, names⟩ = .ok (.directory v d))

omit hopen hnames g on in
include hp in
theorem found_of_place : u.Finds u.root names v := (Tree.finds_directory (place_eq_ok.1 hp).2).1

variable {earlier : External}

include hp

theorem made_of_chained (hpre : names <+: path.names) {e : FsError}
    (hplace : ns.place earlier ⟨ns.id, names⟩ = .error e) : ns.tree.node? v = none ∧
      ({ ns with tree := u } : Namespace).listDirectory later ⟨ns.id, names⟩ =
        .ok (((path.names.drop names.length).take 1).map .directory) := by
  rcases before_or_beyond (hnames ▸ hpre) with ⟨more, hcut⟩ | ⟨made, hne, hmade, rfl⟩
  · obtain ⟨w, -, hbefore⟩ := place_before hopen g hcut
    obtain ⟨d', hd'⟩ := hbefore earlier
    cases hplace.symm.trans hd'
  · obtain ⟨w, hw, hnew, hlisted⟩ := on.made g hmade hne
    cases (found_of_place hp).same hw.found rfl
    refine ⟨hnew, ?_⟩
    rw [listDirectory, hp, hnames, List.length_append, ← List.drop_drop, List.drop_left]
    exact congrArg Except.ok hlisted

include free in
theorem kept_of_chained (hpre : names <+: path.names) {place : Place}
    (hplace : ns.place earlier ⟨ns.id, names⟩ = .ok place) : place.nodeId? = some v := by
  rcases before_or_beyond (hnames ▸ hpre) with ⟨more, hcut⟩ | ⟨made, hne, hmade, rfl⟩
  · obtain ⟨w, hw, hbefore⟩ := place_before hopen g hcut
    obtain ⟨d', hd'⟩ := hbefore earlier
    cases hplace.symm.trans hd'
    have hafter := on.finds g.sound.toLinked hw.found
    rw [← on.root] at hafter
    exact congrArg some (hafter.same (found_of_place hp) rfl)
  · obtain ⟨what, hmissing⟩ := place_missing hopen g free hne hmade earlier
    cases hplace.symm.trans hmissing

end After

include hopen hnames g on

include free in
theorem vertices_of_chained (v : NodeId) : (u.node? v).isSome ↔ (ns.tree.node? v).isSome ∨
    ∃ names, names <+: path.names ∧ (∀ earlier, ∃ e, ns.place earlier ⟨ns.id, names⟩ = .error e) ∧
      ∀ later, ∃ d, ({ ns with tree := u } : Namespace).place later ⟨ns.id, names⟩ = .ok (.directory v d) := by
  constructor
  · intro hv
    by_cases hold : (ns.tree.node? v).isSome
    · exact .inl hold
    · obtain ⟨made, hmade, hne, hfound⟩ := on.of_new g hv (Option.not_isSome_iff_eq_none.1 hold)
      have hpre : front ++ made <+: path.names := hnames ▸ (List.prefix_append_right_inj front).2 hmade
      refine .inr ⟨front ++ made, hpre, fun earlier => ?_, fun later => ?_⟩
      · obtain ⟨what, hmissing⟩ := place_missing hopen g free hne hmade earlier
        exact ⟨_, hmissing⟩
      · obtain ⟨w, hw, hplace⟩ := place_made hopen hnames g on hpre
        cases hfound.same hw.found rfl
        exact hplace later
  · rintro (hold | ⟨names, -, -, hplace⟩)
    · exact on.kept hold
    · obtain ⟨d, hd⟩ := hplace emptyVolumes
      exact Option.isSome_of_eq_some (Tree.finds_directory (place_eq_ok.1 hd).2).2

include howner

theorem beside_of_chained (other : NamedPath) (hother : other.1.owner = ns.id)
    (hnot : path.startsWith other.1 = false) {earlier later : External} (hsame : ns.tree.SameAnswers earlier later) :
    SameEnd (ns.place earlier other.1) (({ ns with tree := u } : Namespace).place later other.1) := by
  have hopen' : ({ ns with tree := u } : Namespace).isOpen = true := hopen
  have hend : ({ ns with tree := u } : Namespace).place later other.1 = u.resolve later other.1 :=
    place_own hopen' later hother
  rw [place_own hopen earlier hother, hend, Tree.resolve_local hsame]
  refine on.sameEnd g (checkNames_eq_ok.1 other.2) (fun hpre => ?_) later
  rw [← hnames] at hpre
  rw [AbsolutePath.startsWith_iff.2 ⟨howner.trans hother.symm, hpre⟩] at hnot
  cases hnot

/-- once all has been made, there is nothing left to make -/
theorem again_of_chained (ext : External) (now : Time) :
    ({ ns with tree := u } : Namespace).createDirectories ext now path = (.ok (), { ns with tree := u }) := by
  obtain ⟨last, hlast⟩ : ∃ last, u.Ground last path.names := hnames ▸ on.ground g
  have hcheck : ({ ns with tree := u } : Namespace).check path = .ok () := check_eq_ok.2 ⟨hopen, howner⟩
  have hway : ({ ns with tree := u } : Namespace).tree.Finds u.root path.names last := hlast.found
  have hpast := createAlong_past .here hway hlast.directory [] ext now
  rw [createDirectories, hcheck]
  rw [List.append_nil, List.nil_append] at hpast
  exact hpast

include free

/-- **What has been made is what was missing.** -/
theorem completed_of_chained : ns.Completed { ns with tree := u } path where
  tree := rfl
  directory names hpre later := by
    obtain ⟨v, -, hplace⟩ := place_made hopen hnames g on hpre
    exact ⟨v, hplace later⟩
  kept _ _ _ hpre hplace _ _ _ hp := kept_of_chained hopen hnames g free on hp hpre hplace
  made _ _ _ hpre hplace _ _ _ hp := made_of_chained hopen hnames g on hp hpre hplace
  vertices := vertices_of_chained hopen hnames g free on
  beside other hother hnot _ _ hsame := beside_of_chained hopen howner hnames g on other hother hnot hsame
  again := again_of_chained hopen howner hnames g on

end Made

/-- **Making all directories of a path makes exactly what is missing.** After any run of a fresh namespace that is still
open, and for every path of it, the call succeeds exactly when no name on the way leads to a mount. Then every name on
the way leads to a directory, to the one it led to before if there was one and else to a new one with the next name in it
and nothing more; no other vertex is new, paths that are not on the way lead where they led if the filesystems mounted in
the namespace answer as they did, and the same call again succeeds and changes nothing. A call that does not succeed
changes nothing, and its error is told by what the path leads to. -/
theorem createDirectories_exact (id : NamespaceId) (settings : Settings) (start : Time) (events : List Event)
    {ns : Namespace} (hns : ns = (new id settings start).run events) (hopen : ns.isOpen = true) (ext : External)
    (now : Time) (path : NamedPath) (howner : path.1.owner = ns.id) :
    ((ns.createDirectories ext now path.1).1 = .ok () ↔ ∀ front v m, front <+: path.1.names →
      ns.place ext ⟨ns.id, front⟩ ≠ .ok (.mount v m)) ∧
    ((ns.createDirectories ext now path.1).1 = .ok () → ns.Completed (ns.createDirectories ext now path.1).2 path.1) ∧
    ∀ e, (ns.createDirectories ext now path.1).1 = .error e →
      (ns.createDirectories ext now path.1).2 = ns ∧ ns.Barred ext path.1 e := by
  have hfresh := (good_new id settings start).tree
  have hstacked : ns.tree.Stacked := hns ▸ (run_passes hfresh events).stacked hfresh
  obtain ⟨hapart, hnamed⟩ := run_apart id settings start events
  rw [← hns] at hapart hnamed
  have hvalid := checkNames_eq_ok.1 path.2
  rcases createDirectories_cases hstacked.toSound hapart hnamed.rootBare hopen howner hvalid ext now with
    ⟨front, left, p, u, hnames, g, free, hmade, on⟩ | ⟨front, v, m, e, hpre, way, hm, hfails, hbarred⟩
  · rw [hmade]
    refine ⟨⟨fun _ names v m hpre hplace => ?_, fun _ => rfl⟩, fun _ => ?_, nofun⟩
    · rcases before_or_beyond (hnames ▸ hpre) with ⟨more, hcut⟩ | ⟨made, hne, hleft, rfl⟩
      · obtain ⟨w, -, hbefore⟩ := place_before hopen g hcut
        obtain ⟨d, hd⟩ := hbefore ext
        cases hplace.symm.trans hd
      · obtain ⟨what, hmissing⟩ := place_missing hopen g free hne hleft ext
        cases hplace.symm.trans hmissing
    · exact completed_of_chained hopen howner hnames g free on
  · have hplace : ns.place ext ⟨ns.id, front⟩ = .ok (.mount v m) :=
      (place_own hopen ext rfl).trans (Tree.Finds.resolve way hm ext)
    rw [hfails]
    refine ⟨⟨nofun, fun hclear => absurd hplace (hclear front v m hpre)⟩, nofun, fun e' he' => ?_⟩
    cases he'
    exact ⟨rfl, hbarred⟩

/-- two directories missing in one that is there are made -/
theorem shelved_completed : ((new 1 {} 0).run shelved).isOpen = true ∧
    (((new 1 {} 0).run shelved).createDirectories emptyVolumes 4 ⟨1, ["a", "b"]⟩).1 = .ok () ∧
    ((new 1 {} 0).run shelved).Completed
      (((new 1 {} 0).run shelved).createDirectories emptyVolumes 4 ⟨1, ["a", "b"]⟩).2 ⟨1, ["a", "b"]⟩ := by
  have hopen : ((new 1 {} 0).run shelved).isOpen = true := by cbv
  have hok : (((new 1 {} 0).run shelved).createDirectories emptyVolumes 4 ⟨1, ["a", "b"]⟩).1 = .ok () := by cbv
  have hid : 1 = ((new 1 {} 0).run shelved).id := by cbv
  obtain ⟨-, hmade, -⟩ := createDirectories_exact 1 {} 0 shelved rfl hopen emptyVolumes 4
    (pathOf ["a", "b"] (by decide)) hid
  exact ⟨hopen, hok, hmade hok⟩

example : (((new 1 {} 0).run shelved).createDirectories emptyVolumes 4 ⟨1, ["m", "x", "y"]⟩).1 =
    .error (outsideRefusal ⟨1, ["m", "x"]⟩) := by cbv

end Namespace

/-! ## A namespace that is shown itself -/

namespace World

/-- the directory that is made is found at a path through both mounts, where nothing was before -/
theorem mirrored_shows_new : (mirrored.createDirectories 1 ⟨1, ["c"]⟩).1 = .ok () ∧
    AbsolutePath.startsWith ⟨1, ["c"]⟩ ⟨1, ["a", "b", "c"]⟩ = false ∧
    ∃ ns next, mirrored.namespace? 1 = some ns ∧ ns.isOpen = true ∧
      (mirrored.createDirectories 1 ⟨1, ["c"]⟩).2.namespace? 1 = some next ∧
      ¬ SameEnd (ns.place mirrored.external ⟨1, ["a", "b", "c"]⟩)
        (next.place (mirrored.createDirectories 1 ⟨1, ["c"]⟩).2.external ⟨1, ["a", "b", "c"]⟩) := by
  refine ⟨rfl, by decide, (mirrored.namespace? 1).get rfl,
    ((mirrored.createDirectories 1 ⟨1, ["c"]⟩).2.namespace? 1).get rfl, rfl, rfl, rfl, ?_⟩
  have before : ((mirrored.namespace? 1).get rfl).place mirrored.external ⟨1, ["a", "b", "c"]⟩ =
      .error (missing ["a", "b", "c"]) := rfl
  have after : (((mirrored.createDirectories 1 ⟨1, ["c"]⟩).2.namespace? 1).get rfl).place
      (mirrored.createDirectories 1 ⟨1, ["c"]⟩).2.external ⟨1, ["a", "b", "c"]⟩ =
      .ok (.real "c" ⟨.space 2, .ofString "/b/c"⟩) := rfl
  rw [before, after]
  exact id

end World

end MountSpace

/-
A namespace refines its outline. Every operation on a good namespace answers as the reference does on the outline of its
tree, and leaves a good namespace whose outline is what the reference leaves (`Refines`, one lemma for each operation).
By induction on the turns, whatever is asked of a fresh namespace, the arena and the reference cannot be told apart
(`turns_refine`).

Refusals agree to the word, so the order in which an operation asks its questions is part of the statement.
-/
import MountSpace.Proofs.Outline.Steps
import MountSpace.Proofs.Path.Matching

namespace MountSpace

namespace Namespace

/-- open, with a stacked arena -/
structure Good (ns : Namespace) : Prop where
  isOpen : ns.isOpen = true
  tree : ns.tree.Stacked

/-- the namespace without its arena -/
def reference (ns : Namespace) : Reference := ⟨ns.id, ns.tree.collapse⟩

/-- the same answer, and a good namespace with the outline that is meant -/
structure Refines (outcome : Except FsError Unit × Namespace) (meant : Except FsError Unit × Reference) : Prop where
  answer : outcome.1 = meant.1
  good : outcome.2.Good
  same : outcome.2.reference = meant.2

/-! ## Questions -/

section Questions

variable {ns : Namespace} (h : ns.Good)
include h

theorem Good.refused (e : FsError) : Refines (.error e, ns) (.error e, ns.reference) := ⟨rfl, h, rfl⟩

theorem Good.unchanged : Refines (.ok (), ns) (.ok (), ns.reference) := ⟨rfl, h, rfl⟩

theorem Good.withTree {tree : Tree} (ht : tree.Stacked) : ({ ns with tree } : Namespace).Good := ⟨h.isOpen, ht⟩

theorem check_reference (path : AbsolutePath) : ns.reference.check path = ns.check path := by
  rw [Namespace.check, if_pos h.isOpen]
  rfl

theorem resolve_reference (ext : External) {path : AbsolutePath} (hv : checkNames path.names = .ok ()) :
    ns.reference.resolve ext path = (ns.tree.resolve ext path).map ns.tree.spotOf :=
  (Tree.resolve_collapse h.tree ext hv).symm

theorem resolveOrMissing_reference (ext : External) {path : AbsolutePath} (hv : checkNames path.names = .ok ()) :
    ns.reference.resolveOrMissing ext path =
      (ns.tree.resolveOrMissing ext path).map (Option.map ns.tree.spotOf) := by
  rw [Reference.resolveOrMissing, Tree.resolveOrMissing, resolve_reference h ext hv]
  cases ns.tree.resolve ext path with
  | ok place => rfl
  | error e => cases e <;> rfl

end Questions

/-- the root, or a last name below a parent -/
theorem path_cases (path : AbsolutePath) :
    (path.names = [] ∧ path.parent? = none ∧ path.fileName? = none) ∨
      ∃ parent name, path.names = parent ++ [name] ∧ path.parent? = some ⟨path.owner, parent⟩ ∧
        path.fileName? = some name := by
  rcases List.eq_nil_or_concat path.names with hn | ⟨parent, name, hn⟩
  · exact .inl ⟨hn, by rw [AbsolutePath.parent?, if_pos hn], by rw [AbsolutePath.fileName?, hn]; rfl⟩
  · refine .inr ⟨parent, name, by simpa using hn, ?_, ?_⟩
    · simp [AbsolutePath.parent?, hn]
    · simp [AbsolutePath.fileName?, hn]

theorem checkNames_append {before later : List String} (h : checkNames (before ++ later) = .ok ()) :
    checkNames before = .ok () ∧ checkNames later = .ok () := by
  simp only [checkNames_eq_ok, List.mem_append] at h ⊢
  exact ⟨fun n hn => h n (.inl hn), fun n hn => h n (.inr hn)⟩

/-! ## Directories made -/

section Operations

variable {ns : Namespace} (h : ns.Good) (ext : External) (now : Time)
include h

theorem createDirectory_refines {path : AbsolutePath} (hv : checkNames path.names = .ok ()) :
    Refines (ns.createDirectory ext now path) (ns.reference.createDirectory ext path) := by
  rw [createDirectory, Reference.createDirectory, check_reference h]
  cases ns.check path with
  | error e => exact h.refused e
  | ok _ =>
    rcases path_cases path with ⟨-, hparent, hlast⟩ | ⟨parent, name, hnames, hparent, hlast⟩
    · rw [hparent, hlast]
      exact h.unchanged
    rw [hparent, hlast]
    have hvp : checkNames parent = .ok () := (checkNames_append (hnames ▸ hv)).1
    have hresolve : ns.reference.resolve ext ⟨path.owner, parent⟩ = _ := resolve_reference h ext hvp
    simp only [hresolve]
    cases hr : ns.tree.resolve ext ⟨path.owner, parent⟩ with
    | error e => exact h.refused e
    | ok place =>
      cases place with
      | mount id m => exact h.refused _
      | real n at_ => exact h.refused _
      | directory id dir =>
        obtain ⟨s, n, hs, rfl, -⟩ := Tree.follow_of_resolve h.tree hr rfl
        have hsl := Tree.lays_follow h.tree hs
        have hsa := Tree.attached_follow h.tree hs
        have hchild := Tree.findChild_eq_find? h.tree hsl hsa name
        have hany : (ns.tree.outlineAt s.label).children.any (Outline.isNamed name) =
            (ns.tree.findChild s.label name).isSome := by
          rw [← Tree.map_labelOf_eq h.tree hsl hsa, Rose.children_map, hchild, Option.isSome_map, List.isSome_find?,
            List.any_map]
          refine congrArg _ (funext fun c => ?_)
          rw [Function.comp_apply, Outline.isNamed, Rose.label_map]
        simp only [Except.map, Tree.spotOf, hany]
        cases hfree : ns.tree.findChild s.label name with
        | some c =>
          have hno : ns.tree.append s.label (.directory (.new name now)) (now + 1) = none := by
            rw [Tree.append, show (Node.directory (.new name now)).name = name from rfl, hfree]
            simp
          rw [hno]
          exact h.refused _
        | none =>
          obtain ⟨u, hu, hstacked, hcollapse⟩ := Tree.append_collapse h.tree hs (.new name now) hfree (now + 1)
          rw [hu]
          exact ⟨rfl, h.withTree hstacked, by rw [reference, hcollapse]; rfl⟩

omit h in
theorem createAlong_refines {names : List String} (h : ns.Good) (walked : List String) (now : Time)
    (hv : checkNames (walked ++ names) = .ok ()) :
    Refines (createAlong ext now walked names ns) (Reference.createAlong ext walked names ns.reference) := by
  induction names generalizing ns walked now with
  | nil => exact h.unchanged
  | cons name rest ih =>
    have hsplit : walked ++ name :: rest = (walked ++ [name]) ++ rest := by simp
    have hvr : checkNames ((walked ++ [name]) ++ rest) = .ok () := hsplit ▸ hv
    have hvh : checkNames (AbsolutePath.names ⟨ns.id, walked ++ [name]⟩) = .ok () := (checkNames_append hvr).1
    have hmissing := resolveOrMissing_reference h ext hvh
    have hmade := createDirectory_refines h ext now hvh
    rw [createAlong, Reference.createAlong]
    simp only [show ns.reference.id = ns.id from rfl, hmissing]
    cases ns.tree.resolveOrMissing ext ⟨ns.id, walked ++ [name]⟩ with
    | error e => exact h.refused e
    | ok existing =>
      cases existing with
      | some place =>
        have hblocked : Refines
            (if rest = [] then (.error (.alreadyExists (AbsolutePath.text ⟨ns.id, walked ++ [name]⟩)), ns)
              else createAlong ext now (walked ++ [name]) rest ns)
            (if rest = [] then (.error (.alreadyExists (AbsolutePath.text ⟨ns.id, walked ++ [name]⟩)), ns.reference)
              else Reference.createAlong ext (walked ++ [name]) rest ns.reference) := by
          split
          · exact h.refused _
          · exact ih h (walked ++ [name]) now hvr
        cases place with
        | directory id dir => exact ih h (walked ++ [name]) now hvr
        | mount id m => exact hblocked
        | real n at_ => exact hblocked
      | none =>
        cases hd : ns.createDirectory ext now ⟨ns.id, walked ++ [name]⟩ with
        | mk answer made =>
          rw [hd] at hmade
          have hmeant : ns.reference.createDirectory ext ⟨ns.id, walked ++ [name]⟩ = (answer, made.reference) :=
            Prod.ext hmade.answer.symm hmade.same.symm
          have hon := ih hmade.good (walked ++ [name]) (now + 2) hvr
          simp only [Except.map, Option.map, hmeant]
          cases answer with
          | ok _ => exact hon
          | error e =>
            cases e with
            | alreadyExists what => exact hon
            | _ => exact hmade.good.refused _

theorem createDirectories_refines {path : AbsolutePath} (hv : checkNames path.names = .ok ()) :
    Refines (ns.createDirectories ext now path) (ns.reference.createDirectories ext path) := by
  rw [createDirectories, Reference.createDirectories, check_reference h]
  cases ns.check path with
  | error e => exact h.refused e
  | ok _ => exact createAlong_refines ext h [] now hv

/-! ## Directories taken out and renamed -/

theorem delete_refines {path : AbsolutePath} (hv : checkNames path.names = .ok ()) :
    Refines (ns.delete ext now path) (ns.reference.delete ext path) := by
  rw [delete, Reference.delete, check_reference h]
  cases ns.check path with
  | error e => exact h.refused e
  | ok _ =>
    rcases path_cases path with ⟨hnames, hparent, hlast⟩ | ⟨parent, name, hnames, hparent, hlast⟩
    · rw [hparent, hlast, AbsolutePath.isRoot, hnames]
      exact h.refused _
    have hroot : path.isRoot = false := by simp [AbsolutePath.isRoot, hnames]
    rw [hparent, hlast, hroot]
    simp only [resolve_reference h ext hv, Bool.false_eq_true, if_false]
    cases hr : ns.tree.resolve ext path with
    | error e => exact h.refused e
    | ok place =>
      cases place with
      | mount id m => exact h.refused _
      | real n at_ => exact h.refused _
      | directory id dir =>
        obtain ⟨s, n, hs, rfl, hn, hplace⟩ := Tree.follow_of_resolve h.tree hr rfl
        have hsl := Tree.lays_follow h.tree hs
        have hsa := Tree.attached_follow h.tree hs
        have hchildren : ns.tree.childrenOf s.label = s.children.map Rose.label := hsl s s.self_mem_subtrees
        have hd : ns.tree.node? s.label = some (.directory dir) := by
          cases n with
          | directory d => cases hplace; exact hn
          | mount m => cases hplace
        have hempty : (ns.tree.outlineAt s.label).children.isEmpty = s.children.isEmpty := by
          rw [← Tree.map_labelOf_eq h.tree hsl hsa, Rose.children_map]
          cases s.children <;> rfl
        simp only [Except.map, Tree.spotOf, hempty]
        cases hc : s.children with
        | nil =>
          obtain ⟨u, hu, hstacked, hcollapse⟩ :=
            Tree.delete_collapse h.tree (hnames ▸ hs) hd (by rw [hchildren, hc]; rfl) now
          rw [hu]
          exact ⟨rfl, h.withTree hstacked, by rw [reference, hcollapse]; rfl⟩
        | cons c rest =>
          have hfirst : c.label ∈ ns.tree.childrenOf s.label := by rw [hchildren, hc]; exact List.mem_cons_self
          have hno : ns.tree.deleteIfEmpty s.label now = none := by
            rw [Tree.deleteIfEmpty, Tree.get?_of_node? hd, hchildren, hc]
            split
            · rfl
            · cases ns.tree.parentOf s.label <;> rfl
          have hedges : ns.tree.edges s.label ≠ [] := by
            obtain ⟨hcl, hca⟩ := Tree.attached_child h.tree hsl hsa (hc ▸ List.mem_cons_self)
            obtain ⟨n, hn⟩ := Option.isSome_iff_exists.1 ((ns.tree.node?_isSome _).trans (h.tree.present hca))
            rw [Tree.edges, hchildren, hc, List.map_cons, List.filterMap_cons, hn]
            simp
          rw [hno]
          simp only [hedges, ne_eq, not_false_eq_true, if_true]
          exact h.refused _

/-- the name asked for is taken, told by vertices and told by names -/
theorem taken_iff {source target : AbsolutePath} {parent others : List String} {a b : String}
    (hsource : source.names = parent ++ [a]) (htarget : target.names = others ++ [b])
    (hfold : foldNames parent = foldNames others) {s : Rose NodeId}
    (hs : ns.tree.follow source.names ns.tree.layout = some s) {existing : Option Place}
    (he : ns.tree.resolveOrMissing ext target = .ok existing) :
    (existing.isSome && existing.bind Place.nodeId? ≠ some s.label) = (existing.isSome && !Text.sameName a b) := by
  cases existing with
  | none => rfl
  | some place =>
    rw [hsource] at hs
    have hplace := Tree.resolveOrMissing_eq_some.1 he
    obtain ⟨hsame, hother⟩ := Tree.follow_sibling hs hfold (b := b)
    simp only [Option.isSome_some, Bool.true_and, Option.bind_some]
    cases hab : Text.sameName a b with
    | true =>
      have hfollow : ns.tree.follow target.names ns.tree.layout = some s := by
        rw [htarget]
        exact hsame hab
      obtain ⟨n, -, hr⟩ := Tree.resolve_of_follow h.tree ext hfollow
      rw [hr] at hplace
      cases hplace
      have hid : (Place.ofNode s.label n).nodeId? = some s.label := by cases n <;> rfl
      simp [hid]
    | false =>
      have hne : place.nodeId? ≠ some s.label := by
        intro hid
        obtain ⟨s', -, hs', hlabel, -⟩ := Tree.follow_of_resolve h.tree hplace hid
        rw [htarget] at hs'
        exact hother hab s' hs' hlabel
      simp [hne]

theorem rename_refines {source target : AbsolutePath} (hvs : checkNames source.names = .ok ())
    (hvt : checkNames target.names = .ok ()) :
    Refines (ns.rename ext now source target) (ns.reference.rename ext source target) := by
  have hbelongs : ns.reference.check target = ns.checkBelongs target := rfl
  rw [rename, Reference.rename, check_reference h source, hbelongs]
  cases ns.check source with
  | error e => exact h.refused e
  | ok _ =>
    cases ns.checkBelongs target with
    | error e => exact h.refused e
    | ok _ =>
      rcases path_cases source with ⟨-, hsp, hsl⟩ | ⟨parent, a, hsource, hsp, hsl⟩
      · rw [hsp, hsl]
        exact h.refused _
      rcases path_cases target with ⟨-, htp, htl⟩ | ⟨others, b, htarget, htp, htl⟩
      · rw [hsp, hsl, htp, htl]
        exact h.refused _
      rw [hsp, hsl, htp, htl]
      simp only [resolve_reference h ext hvs, resolveOrMissing_reference h ext hvt]
      cases hr : ns.tree.resolve ext source with
      | error e => exact h.refused e
      | ok place =>
        cases place with
        | mount id m => exact h.refused _
        | real n at_ => exact h.refused _
        | directory id dir =>
          obtain ⟨s, n, hs, rfl, hn, hplace⟩ := Tree.follow_of_resolve h.tree hr rfl
          have hd : ns.tree.node? s.label = some (.directory dir) := by
            cases n with
            | directory d => cases hplace; exact hn
            | mount m => cases hplace
          simp only [Except.map, Tree.spotOf]
          cases hsame : AbsolutePath.same ⟨source.owner, parent⟩ ⟨target.owner, others⟩ with
          | false => exact h.refused _
          | true =>
            have hfold : foldNames parent = foldNames others := (AbsolutePath.same_iff.1 hsame).2
            simp only [Bool.not_true, Bool.false_eq_true, if_false]
            cases he : ns.tree.resolveOrMissing ext target with
            | error e => exact h.refused e
            | ok existing =>
              have htaken := taken_iff h ext hsource htarget hfold hs he
              have hsome : (existing.map ns.tree.spotOf).isSome = existing.isSome := Option.isSome_map
              simp only [hsome]
              rw [htaken]
              split
              · exact h.refused _
              · obtain ⟨u, hu, hstacked, hcollapse⟩ := Tree.rename_collapse h.tree hs hd b now
                rw [hu]
                exact ⟨rfl, h.withTree hstacked, by rw [reference, hcollapse]; rfl⟩

/-! ## Mounts -/

theorem cover_refines (source : ExternalPath) {path : AbsolutePath} {s : Rose NodeId}
    (hs : ns.tree.follow path.names ns.tree.layout = some s) {node : Node} (hn : ns.tree.node? s.label = some node) :
    Refines (ns.cover now ⟨source, path⟩ s.label node.name) (.ok (), ns.reference.modify (.push source) path) := by
  obtain ⟨u, hu, hstacked, hcollapse⟩ := Tree.mount_collapse h.tree hs hn ⟨ns.tree.nextId, path, source⟩ now
  rw [cover]
  simp only
  rw [hu]
  exact ⟨rfl, ⟨h.isOpen, hstacked⟩, by rw [reference, hcollapse]; rfl⟩

theorem mount_refines (source : ExternalPath) {path : AbsolutePath} (hv : checkNames path.names = .ok ()) :
    Refines (ns.mount ext now ⟨source, path⟩) (ns.reference.mount ext ⟨source, path⟩) := by
  rw [mount, Reference.mount, check_reference h]
  cases ns.check path with
  | error e => exact h.refused e
  | ok _ =>
    simp only [resolve_reference h ext hv]
    split
    · exact h.refused _
    cases (ext source.fs).getattr source.path with
    | error e => exact h.refused e
    | ok attributes =>
      simp only
      split
      · exact h.refused _
      cases hr : ns.tree.resolve ext path with
      | error e => exact h.refused e
      | ok place =>
        cases place with
        | real n at_ => exact h.refused _
        | directory id dir =>
          obtain ⟨s, n, hs, rfl, hn, hplace⟩ := Tree.follow_of_resolve h.tree hr rfl
          cases n with
          | directory d =>
            cases hplace
            have hcover := cover_refines h now source hs hn
            simp only [Except.map, Tree.spotOf]
            exact hcover
          | mount m => cases hplace
        | mount id m =>
          obtain ⟨s, n, hs, rfl, hn, hplace⟩ := Tree.follow_of_resolve h.tree hr rfl
          cases n with
          | directory d => cases hplace
          | mount m' =>
            cases hplace
            have hcover := cover_refines h now source hs hn
            simp only [Except.map, Tree.spotOf]
            exact hcover

theorem unmount_refines {path : AbsolutePath} (hv : checkNames path.names = .ok ()) :
    Refines (ns.unmount ext path) (ns.reference.unmount ext path) := by
  rw [unmount, Reference.unmount, place, check_reference h]
  cases ns.check path with
  | error e => exact h.refused e
  | ok _ =>
    simp only [resolve_reference h ext hv]
    cases hr : ns.tree.resolve ext path with
    | error e => exact h.refused e
    | ok place =>
      cases place with
      | directory id dir => exact h.refused _
      | real n at_ => exact h.refused _
      | mount id m =>
        obtain ⟨s, n, hs, rfl, hn, hplace⟩ := Tree.follow_of_resolve h.tree hr rfl
        have hm : ns.tree.node? s.label = some (.mount m) := by
          cases n with
          | directory d => cases hplace
          | mount m' => cases hplace; exact hn
        obtain ⟨u, hu, hstacked, hcollapse⟩ := Tree.unmount_collapse h.tree hs hm
        simp only [hu]
        exact ⟨rfl, ⟨h.isOpen, hstacked⟩, by rw [reference, hcollapse]; rfl⟩

/-! ## Reading -/

theorem listTree_eq_entries {s : Rose NodeId} {names : List String}
    (hs : ns.tree.follow names ns.tree.layout = some s) :
    listTree ns.tree s.label = (ns.tree.outlineAt s.label).entries := by
  have hsl := Tree.lays_follow h.tree hs
  have hsa := Tree.attached_follow h.tree hs
  have hchildren : ns.tree.childrenOf s.label = s.children.map Rose.label := hsl s s.self_mem_subtrees
  have hedges : ns.tree.edges s.label =
      s.children.map fun c => ⟨s.label, c.label, (ns.tree.labelOf c.label).name⟩ := by
    rw [Tree.edges, hchildren, List.filterMap_map, ← List.filterMap_eq_map]
    refine List.filterMap_congr fun c hc => ?_
    obtain ⟨-, hca⟩ := Tree.attached_child h.tree hsl hsa hc
    obtain ⟨n, hn⟩ := Option.isSome_iff_exists.1 ((ns.tree.node?_isSome _).trans (h.tree.present hca))
    simp [Tree.labelOf, hn]
  rw [listTree, Outline.entries, hedges, ← Tree.map_labelOf_eq h.tree hsl hsa, Rose.children_map, List.map_map,
    List.map_map]
  refine congrArg (List.mergeSort · _) (List.map_congr_left fun c _ => ?_)
  rw [Function.comp_apply, Function.comp_apply, Rose.label_map]

theorem listDirectory_reference {path : AbsolutePath} (hv : checkNames path.names = .ok ()) :
    ns.listDirectory ext path = ns.reference.listDirectory ext path := by
  rw [listDirectory, Reference.listDirectory, place, check_reference h]
  cases ns.check path with
  | error e => rfl
  | ok _ =>
    simp only [resolve_reference h ext hv]
    cases hr : ns.tree.resolve ext path with
    | error e => rfl
    | ok place =>
      cases place with
      | mount id m => rfl
      | real n at_ => rfl
      | directory id dir =>
        obtain ⟨s, n, hs, rfl, -⟩ := Tree.follow_of_resolve h.tree hr rfl
        exact congrArg _ (listTree_eq_entries h hs)

/-- what a place shows is what its spot shows -/
theorem resolve_seen {path : AbsolutePath} (hv : checkNames path.names = .ok ()) :
    (ns.tree.resolve ext path).map Place.seen = (ns.reference.resolve ext path).map Spot.seen := by
  rw [resolve_reference h ext hv]
  cases hr : ns.tree.resolve ext path with
  | error e => rfl
  | ok place =>
    cases place with
    | real n at_ => rfl
    | directory id dir =>
      obtain ⟨s, n, -, rfl, hn, hplace⟩ := Tree.follow_of_resolve h.tree hr rfl
      cases n with
      | directory d =>
        cases hplace
        simp [Except.map, Tree.spotOf, Place.seen, Spot.seen, Tree.outlineAt, Tree.labelOf, hn, Node.name]
      | mount m => cases hplace
    | mount id m =>
      obtain ⟨s, n, -, rfl, hn, hplace⟩ := Tree.follow_of_resolve h.tree hr rfl
      cases n with
      | directory d => cases hplace
      | mount m' =>
        cases hplace
        simp [Except.map, Tree.spotOf, Place.seen, Spot.seen, Tree.outlineAt, Tree.labelOf, hn, Node.name]

end Operations

/-! ## Turns -/

/-- one turn of a good namespace and of its reference -/
theorem turn_refines {ns : Namespace} (h : ns.Good) (turn : Turn) :
    (ns.turn turn).1 = (ns.reference.turn turn).1 ∧ (ns.turn turn).2.Good ∧
      (ns.turn turn).2.reference = (ns.reference.turn turn).2 := by
  have change : ∀ {outcome meant}, Refines outcome meant →
      (Answer.ofChange outcome).1 = (Answer.ofChange meant).1 ∧ (Answer.ofChange outcome).2.Good ∧
        (Answer.ofChange outcome).2.reference = (Answer.ofChange meant).2 :=
    fun hr => ⟨congrArg Answer.done hr.answer, hr.good, hr.same⟩
  obtain ⟨ext, now, operation⟩ := turn
  cases operation with
  | createDirectory path => exact change (createDirectory_refines h ext now path.2)
  | createDirectories path => exact change (createDirectories_refines h ext now path.2)
  | delete path => exact change (delete_refines h ext now path.2)
  | rename source target => exact change (rename_refines h ext now source.2 target.2)
  | mount source at_ => exact change (mount_refines h ext now source at_.2)
  | unmount path => exact change (unmount_refines h ext path.2)
  | listDirectory path => exact ⟨congrArg Answer.listed (listDirectory_reference h ext path.2), h, rfl⟩
  | resolve path => exact ⟨congrArg Answer.found (resolve_seen h ext path.2), h, rfl⟩

theorem turns_refines {ns : Namespace} (h : ns.Good) (turns : List Turn) :
    (ns.turns turns).1 = (ns.reference.turns turns).1 ∧ (ns.turns turns).2.Good ∧
      (ns.turns turns).2.reference = (ns.reference.turns turns).2 := by
  induction turns generalizing ns with
  | nil => exact ⟨rfl, h, rfl⟩
  | cons turn rest ih =>
    obtain ⟨hanswer, hgood, hsame⟩ := turn_refines h turn
    obtain ⟨hanswers, hlast, hreference⟩ := ih hgood
    rw [turns, Reference.turns, ← hsame]
    exact ⟨by rw [hanswer, hanswers], hlast, hreference⟩

theorem good_new (id : NamespaceId) (settings : Settings) (now : Time) : (Namespace.new id settings now).Good := by
  refine ⟨rfl, Tree.sound_withRoot _, fun a m hm => ?_, fun a m hm => ?_⟩
  · cases a with
    | zero => cases hm
    | succ a => cases hm
  · cases a with
    | zero => cases hm
    | succ a => cases hm

theorem reference_new (id : NamespaceId) (settings : Settings) (now : Time) :
    (Namespace.new id settings now).reference = Reference.new id := by
  have hlabel : (Namespace.new id settings now).tree.labelOf 0 = ⟨"/", []⟩ := by
    rw [Tree.labelOf, Tree.stackOf_eq_nil rfl]
    rfl
  have hlayout : (Namespace.new id settings now).tree.layout = .node 0 [] := rfl
  rw [reference, Reference.new, Tree.collapse_eq, hlayout, Rose.map_node, hlabel]
  rfl

/-- **A namespace is its outline.** Whatever is asked of a fresh namespace, in whatever order and with whatever answers
of the mounted filesystems, it answers as the reference does, and its arena collapses to the tree of the reference. -/
theorem namespace_refines_outline (id : NamespaceId) (settings : Settings) (now : Time) (turns : List Turn) :
    ((Namespace.new id settings now).turns turns).1 = ((Reference.new id).turns turns).1 ∧
      ((Namespace.new id settings now).turns turns).2.tree.collapse = ((Reference.new id).turns turns).2.root := by
  obtain ⟨hanswers, -, hreference⟩ := turns_refines (good_new id settings now) turns
  rw [reference_new] at hanswers hreference
  exact ⟨hanswers, congrArg Reference.root hreference⟩

end Namespace

end MountSpace

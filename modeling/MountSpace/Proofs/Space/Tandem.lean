/-
Operations done in two namespaces at once, one with a mount at a path and one without it. An operation whose paths are
neither at, below nor above that path passes the mount by: the look-ups lead to the same places in both, and the changes
are the same, so the namespaces stay side by side (`Bracketed.turn`). The numbers given out and the clock readings may
differ, and the record of the mount stands in one list of mounts and not in the other.

Making directories is a loop, and it looks up what is above the path too, the way to the mount among it. So for it less
is asked (`Bracketed.createDirectories`): it must not lead to the mount or below it.
-/
import MountSpace.Proofs.Space.Names
import MountSpace.Proofs.Tree.Tandem

namespace MountSpace

namespace AbsolutePath

/-- neither path is at or below the other one -/
def Beside (p q : AbsolutePath) : Prop := p.startsWith q = false ∧ q.startsWith p = false

instance (p q : AbsolutePath) : Decidable (p.Beside q) := inferInstanceAs (Decidable (_ ∧ _))

end AbsolutePath

/-- the paths that an operation is given -/
def Operation.paths : Operation → List AbsolutePath
  | .createDirectory path | .createDirectories path | .delete path | .unmount path => [path.1]
  | .mount _ at_ => [at_.1]
  | .rename source target => [source.1, target.1]
  | .listDirectory path | .resolve path => [path.1]

/-- the turn with another clock reading -/
def Turn.readAt (turn : Turn) (now : Time) : Turn := { turn with now }

namespace Namespace

/-! ## Two namespaces -/

/-- the namespace `nb` has the mount `m` under the number `n` where the path `at_` leads to the vertex `e` in `ns` -/
structure Bracketed (n e : NodeId) (m : MountNode) (R : Time → Time → Prop) (at_ : AbsolutePath) (ns nb : Namespace) :
    Prop where
  id : nb.id = ns.id
  settings : nb.settings = ns.settings
  opened : ns.isOpen = true ∧ nb.isOpen = true
  tree : ns.tree.Bracketed n e m R nb.tree
  mounts : nb.mounts.filter (·.serial ≠ n) = ns.mounts.map (MountRecord.shift n)
  owner : at_.owner = ns.id
  below : at_.names ≠ []
  point : ns.tree.Finds ns.tree.root at_.names e

/-- what is known of two namespaces from their runs -/
structure Fit (ns nb : Namespace) : Prop where
  stacked : ns.tree.Stacked
  apart : ns.tree.Apart
  other : nb.tree.Stacked

theorem Passes.apart {ns last : Namespace} {deeds : List Deed} (h : ns.tree.Stacked) (ha : ns.tree.Apart)
    (hp : Passes ns deeds last) : last.tree.Apart :=
  Passes.keeps (motive := fun ns _ => ns.tree.Apart) h ha (fun _ _ _ _ hmid _ edit hkept => apart_edit hmid hkept edit)
    hp

theorem Fit.passes {ns nb last last' : Namespace} {deeds deeds' : List Deed} (fit : Fit ns nb)
    (hp : Passes ns deeds last) (hp' : Passes nb deeds' last') : Fit last last' :=
  ⟨hp.stacked fit.stacked, hp.apart fit.stacked fit.apart, hp'.stacked fit.other⟩

namespace Bracketed

variable {n e : NodeId} {m : MountNode} {R : Time → Time → Prop} {at_ : AbsolutePath} {ns nb : Namespace}
  (h : Bracketed n e m R at_ ns nb)
include h

theorem checkBelongs (path : AbsolutePath) : nb.checkBelongs path = ns.checkBelongs path := by
  rw [Namespace.checkBelongs, Namespace.checkBelongs, h.id]

theorem check (path : AbsolutePath) : nb.check path = ns.check path := by
  rw [Namespace.check, Namespace.check, h.opened.1, h.opened.2, h.checkBelongs]

/-- a change of both trees -/
theorem withTree {t u : Tree} (tree : t.Bracketed n e m R u) (point : t.Finds t.root at_.names e) :
    Bracketed n e m R at_ { ns with tree := t } { nb with tree := u } :=
  ⟨h.id, h.settings, h.opened, tree, h.mounts, h.owner, h.below, point⟩

theorem not_below {path : AbsolutePath} (hp : path.startsWith at_ = false) (owner : path.owner = ns.id) :
    ¬ foldNames at_.names <+: foldNames path.names := by
  intro hn
  rw [AbsolutePath.startsWith_iff.2 ⟨owner.trans h.owner.symm, hn⟩] at hp
  cases hp

theorem not_above {path : AbsolutePath} (hp : at_.startsWith path = false) (owner : path.owner = ns.id) :
    ¬ foldNames path.names <+: foldNames at_.names := by
  intro hn
  rw [AbsolutePath.startsWith_iff.2 ⟨h.owner.trans owner.symm, hn⟩] at hp
  cases hp

/-- a path beside the mount point, in names -/
theorem clear {path : AbsolutePath} (hp : path.Beside at_) (hc : ns.check path = .ok ()) :
    (¬ foldNames at_.names <+: foldNames path.names) ∧ ¬ foldNames path.names <+: foldNames at_.names :=
  ⟨h.not_below hp.1 (check_eq_ok.1 hc).2, h.not_above hp.2 (check_eq_ok.1 hc).2⟩

variable (fit : Fit ns nb)
include fit

theorem root_ne : ns.tree.root ≠ e := by
  have hnil : ¬ foldNames at_.names <+: foldNames [] := fun hn =>
    h.below (List.map_eq_nil_iff.1 (List.prefix_nil.1 hn))
  exact h.point.ne fit.stacked.toLinked hnil .here

theorem attached : ns.tree.isAttached e = true :=
  h.point.attached fit.stacked.toLinked (Tree.attached_root ns.tree)

/-- a path that does not lead to the mount or below it leads to the same place in both -/
theorem resolve (path : AbsolutePath) (hp : ¬ foldNames at_.names <+: foldNames path.names) (ext : External) :
    Agrees (Place.Alike n R) (ns.tree.resolve ext path) (nb.tree.resolve ext path) :=
  h.tree.resolve (h.root_ne fit) (h.point.elsewhere fit.stacked.toLinked hp) ext

theorem resolveOrMissing (path : AbsolutePath) (hp : ¬ foldNames at_.names <+: foldNames path.names)
    (ext : External) :
    Agrees (Option.Rel (Place.Alike n R)) (ns.tree.resolveOrMissing ext path) (nb.tree.resolveOrMissing ext path) :=
  h.tree.resolveOrMissing (h.root_ne fit) (h.point.elsewhere fit.stacked.toLinked hp) ext

/-! ## Directories made -/

variable (ext : External) {a b : Time}

theorem createDirectory {path : AbsolutePath} (hp : path.startsWith at_ = false) (hR : ∀ k : Nat, R (a + k) (b + k)) :
    (nb.createDirectory ext b path).1 = (ns.createDirectory ext a path).1 ∧
      Bracketed n e m R at_ (ns.createDirectory ext a path).2 (nb.createDirectory ext b path).2 := by
  rw [Namespace.createDirectory, Namespace.createDirectory, h.check]
  cases hc : ns.check path with
  | error refused => exact ⟨rfl, h⟩
  | ok _ =>
    rcases path_cases path with ⟨-, hparent, hlast⟩ | ⟨parent, name, hnames, hparent, hlast⟩
    · rw [hparent, hlast]
      exact ⟨rfl, h⟩
    rw [hparent, hlast]
    have hclear : ¬ foldNames at_.names <+: foldNames parent := by
      have hpath := h.not_below hp (check_eq_ok.1 hc).2
      rw [hnames] at hpath
      exact fun hn => hpath (hn.trans ((List.prefix_append _ _).map Text.fold))
    have hagrees := h.resolve fit ⟨path.owner, parent⟩ hclear ext
    simp only
    generalize hr : ns.tree.resolve ext ⟨path.owner, parent⟩ = outcome at hagrees ⊢
    generalize nb.tree.resolve ext ⟨path.owner, parent⟩ = outcome' at hagrees ⊢
    cases hagrees with
    | error refused => exact ⟨rfl, h⟩
    | ok halike =>
      cases halike with
      | mount _ => exact ⟨rfl, h⟩
      | real => exact ⟨rfl, h⟩
      | @directory p d d' _ =>
        have hfinds := (Tree.finds_directory hr).1
        have hpe : p ≠ e := h.point.ne fit.stacked.toLinked hclear hfinds
        have hnext : R (a + 1) (b + 1) := hR 1
        have hrel := h.tree.append fit.stacked.toSound fit.other.toSound hpe name (by simpa using hR 0) hnext
        simp only
        generalize hx : ns.tree.append p (.directory (.new name a)) (a + 1) = x at hrel ⊢
        generalize nb.tree.append (shift n p) (.directory (.new name b)) (b + 1) = y at hrel ⊢
        cases hrel with
        | none => exact ⟨rfl, h⟩
        | some hb =>
          have hgrown := Tree.grown_append fit.stacked.toLinked hx
          refine ⟨rfl, h.withTree hb ?_⟩
          rw [hgrown.root]
          exact h.point.grown hgrown fit.stacked.toLinked

omit h fit in
theorem add_two (t : Int) (k : Nat) : t + ((k + 2 : Nat) : Int) = t + 2 + k := by omega

/-- the loop looks up the names one by one, each time with the directories made so far -/
theorem createAlong {names walked : List String} (hp : ¬ foldNames at_.names <+: foldNames (walked ++ names))
    (hv : checkNames (walked ++ names) = .ok ()) (hR : ∀ k : Nat, R (a + k) (b + k)) :
    Bracketed n e m R at_ (Namespace.createAlong ext a walked names ns).2
      (Namespace.createAlong ext b walked names nb).2 := by
  induction names generalizing ns nb walked a b with
  | nil => exact h
  | cons name rest ih =>
    have hsplit : walked ++ name :: rest = (walked ++ [name]) ++ rest := by simp
    rw [hsplit] at hp hv
    have hhere : ¬ foldNames at_.names <+: foldNames (walked ++ [name]) := fun hn =>
      hp (hn.trans ((List.prefix_append _ rest).map Text.fold))
    have hlater : ∀ k : Nat, R (a + 2 + k) (b + 2 + k) := by
      intro k
      have hk := hR (k + 2)
      rwa [add_two, add_two] at hk
    have hagrees := h.resolveOrMissing fit ⟨ns.id, walked ++ [name]⟩ hhere ext
    rw [Namespace.createAlong, Namespace.createAlong, h.id]
    generalize ns.tree.resolveOrMissing ext ⟨ns.id, walked ++ [name]⟩ = outcome at hagrees ⊢
    generalize nb.tree.resolveOrMissing ext ⟨ns.id, walked ++ [name]⟩ = outcome' at hagrees ⊢
    cases hagrees with
    | error refused => exact h
    | ok hrel =>
      cases hrel with
      | some halike =>
        cases halike with
        | directory _ => exact ih h fit hp hv hR
        | mount _ =>
          simp only
          split
          · exact h
          · exact ih h fit hp hv hR
        | real =>
          simp only
          split
          · exact h
          · exact ih h fit hp hv hR
      | none =>
        have hstarts : (⟨ns.id, walked ++ [name]⟩ : AbsolutePath).startsWith at_ = false := by
          rw [← Bool.not_eq_true, AbsolutePath.startsWith_iff]
          exact fun hn => hhere hn.2
        have hmade := h.createDirectory fit ext hstarts hR
        have hnamed := (checkNames_append hv).1
        have hpass : Passes ns [] (ns.createDirectory ext a ⟨ns.id, walked ++ [name]⟩).2 :=
          createDirectory_passes fit.stacked ext a hnamed
        have hpass' : Passes nb [] (nb.createDirectory ext b ⟨ns.id, walked ++ [name]⟩).2 :=
          createDirectory_passes fit.other ext b hnamed
        simp only
        generalize ns.createDirectory ext a ⟨ns.id, walked ++ [name]⟩ = outcome at hmade hpass ⊢
        generalize nb.createDirectory ext b ⟨ns.id, walked ++ [name]⟩ = outcome' at hmade hpass' ⊢
        obtain ⟨answer, made⟩ := outcome
        obtain ⟨answer', made'⟩ := outcome'
        obtain ⟨hanswer, hbracketed⟩ := hmade
        simp only at hanswer
        subst hanswer
        -- a name that is there by now is passed over, as one that has just been made
        have hon := ih hbracketed (fit.passes hpass hpass') hp hv hlater
        cases answer' with
        | ok _ => exact hon
        | error refused =>
          cases refused with
          | alreadyExists what => exact hon
          | _ => exact hbracketed

theorem createDirectories {path : AbsolutePath} (hp : path.startsWith at_ = false)
    (hv : checkNames path.names = .ok ()) (hR : ∀ k : Nat, R (a + k) (b + k)) :
    Bracketed n e m R at_ (ns.createDirectories ext a path).2 (nb.createDirectories ext b path).2 := by
  rw [Namespace.createDirectories, Namespace.createDirectories, h.check]
  cases hc : ns.check path with
  | error refused => exact h
  | ok _ => exact h.createAlong fit ext (h.not_below hp (check_eq_ok.1 hc).2) hv hR

/-! ## The other changes -/

theorem delete {path : AbsolutePath} (hp : path.Beside at_) (hR : R a b) :
    Bracketed n e m R at_ (ns.delete ext a path).2 (nb.delete ext b path).2 := by
  rw [Namespace.delete, Namespace.delete, h.check]
  cases hc : ns.check path with
  | error refused => exact h
  | ok _ =>
    obtain ⟨hbelow, habove⟩ := h.clear hp hc
    have hagrees := h.resolve fit path hbelow ext
    simp only
    split
    · exact h
    next hroot =>
    generalize hr : ns.tree.resolve ext path = outcome at hagrees ⊢
    generalize nb.tree.resolve ext path = outcome' at hagrees ⊢
    cases hagrees with
    | error refused => exact h
    | ok halike =>
      cases halike with
      | mount _ => exact h
      | real => exact h
      | @directory id d d' _ =>
        have hfinds := (Tree.finds_directory hr).1
        have hid : id ≠ e := h.point.ne fit.stacked.toLinked hbelow hfinds
        have hpar : ns.tree.parentOf id ≠ some e := by
          intro he
          rcases path_cases path with ⟨hnil, -⟩ | ⟨parent, name, hnames, -⟩
          · exact hroot (by rw [AbsolutePath.isRoot, hnil]; rfl)
          · rw [hnames] at hfinds hbelow
            obtain ⟨p, hfp, hp⟩ := hfinds.parent fit.stacked.toLinked
            rw [he] at hp
            cases hp
            exact h.point.elsewhere fit.stacked.toLinked hbelow parent e (List.prefix_append _ _) hfp rfl
        have hrel := h.tree.delete fit.stacked.toSound fit.other.toSound hid hpar hR
        simp only
        generalize hx : ns.tree.deleteIfEmpty id a = x at hrel ⊢
        generalize nb.tree.deleteIfEmpty (shift n id) b = y at hrel ⊢
        cases hrel with
        | none =>
          simp only
          split <;> split <;> exact h
        | some hb =>
          have hpruned := Tree.pruned_delete fit.stacked.toLinked hx
          refine h.withTree hb ?_
          rw [hpruned.root]
          exact h.point.pruned (hfinds.elsewhere fit.stacked.toLinked habove)
            (Tree.apart_pruned fit.apart hpruned) hpruned

theorem rename {source target : AbsolutePath} (hs : source.Beside at_) (ht : target.startsWith at_ = false)
    (hv : checkNames target.names = .ok ()) (hR : R a b) :
    Bracketed n e m R at_ (ns.rename ext a source target).2 (nb.rename ext b source target).2 := by
  have apart := (rename_does fit.stacked ext a source hv).passes.apart fit.stacked fit.apart
  rw [Namespace.rename] at apart ⊢
  rw [Namespace.rename, h.check, h.checkBelongs]
  cases hc : ns.check source with
  | error refused => exact h
  | ok _ =>
    cases hb : ns.checkBelongs target with
    | error refused => exact h
    | ok _ =>
      rw [hc, hb] at apart
      obtain ⟨hbelow, habove⟩ := h.clear hs hc
      rcases path_cases source with ⟨-, hsp, -⟩ | ⟨parent, -, -, hsp, -⟩
      · rw [hsp]
        exact h
      rcases path_cases target with ⟨-, htp, htl⟩ | ⟨others, name, -, htp, htl⟩
      · rw [hsp, htp, htl]
        exact h
      rw [hsp, htp, htl] at apart ⊢
      have hagrees := h.resolve fit source hbelow ext
      simp only at apart ⊢
      generalize hr : ns.tree.resolve ext source = outcome at hagrees apart ⊢
      generalize nb.tree.resolve ext source = outcome' at hagrees ⊢
      cases hagrees with
      | error refused => exact h
      | ok halike =>
        cases halike with
        | mount _ => exact h
        | real => exact h
        | @directory id d d' _ =>
          have hfinds := (Tree.finds_directory hr).1
          have hid : id ≠ e := h.point.ne fit.stacked.toLinked hbelow hfinds
          simp only at apart ⊢
          generalize AbsolutePath.same ⟨source.owner, parent⟩ ⟨target.owner, others⟩ = same at apart ⊢
          cases same with
          | false => exact h
          | true =>
            have htarget := h.resolveOrMissing fit target (h.not_below ht (checkBelongs_eq_ok.1 hb)) ext
            simp only [Bool.not_true, Bool.false_eq_true, if_false] at apart ⊢
            generalize ns.tree.resolveOrMissing ext target = found at htarget apart ⊢
            generalize nb.tree.resolveOrMissing ext target = found' at htarget ⊢
            cases htarget with
            | error refused => exact h
            | @ok existing existing' hrel =>
              simp only [taken_alike hrel id] at apart ⊢
              split
              · exact h
              next hfree =>
              rw [if_neg hfree] at apart
              have hnew := h.tree.rename hid name hR
              generalize hx : ns.tree.rename id name a = x at hnew apart ⊢
              generalize nb.tree.rename (shift n id) name b = y at hnew ⊢
              cases hnew with
              | none => exact h
              | some hb =>
                have hrenamed := Tree.renamed_rename hx
                refine h.withTree hb ?_
                rw [hrenamed.root]
                exact h.point.renamed (hfinds.elsewhere fit.stacked.toLinked habove) apart hrenamed
                  (Tree.rename_eq_some hx).1

omit ext in
/-- a vertex that stands elsewhere has come or gone, with a mount over it -/
theorem point_swapped {path : AbsolutePath} {x r : NodeId} {u : Tree}
    (hfinds : ns.tree.Finds ns.tree.root path.names x) (habove : ¬ foldNames path.names <+: foldNames at_.names)
    (hu : ns.tree.Swapped x r u) (names : ns.tree.KeepsNames x r u)
    (hface : ∀ k, k ≠ x → k ≠ r → u.face? k = ns.tree.face? k) : u.Finds u.root at_.names e := by
  have past := hfinds.elsewhere fit.stacked.toLinked habove
  have hroot : ns.tree.root ≠ x := past [] _ List.nil_prefix .here
  have apart := Tree.apart_swapped fit.stacked.toLinked fit.apart hu names
  rw [hu.root, Tree.put, if_neg hroot]
  exact h.point.swapped past apart hu fit.stacked.toLinked hface (Tree.attached_root ns.tree)

omit ext in
theorem cover {path : AbsolutePath} {x : NodeId} {name : String} (source : ExternalPath) (hxe : x ≠ e)
    (hfinds : ns.tree.Finds ns.tree.root path.names x) (habove : ¬ foldNames path.names <+: foldNames at_.names)
    (hname : ns.tree.name? x = some name) (hR : R a b) :
    Bracketed n e m R at_ (ns.cover a ⟨source, path⟩ x name).2 (nb.cover b ⟨source, path⟩ (shift n x) name).2 := by
  have hrel := h.tree.replace fit.stacked.toSound fit.other.toSound hxe name ⟨ns.tree.nextId, path, source⟩ hR
  rw [Namespace.cover, Namespace.cover, h.tree.nextId_eq]
  simp only [MountRecord.shift] at hrel ⊢
  generalize hy : ns.tree.replaceWith x (.mount ⟨name, ⟨ns.tree.nextId, path, source⟩, .at a, x⟩) = y at hrel ⊢
  generalize nb.tree.replaceWith (shift n x)
    (.mount ⟨name, ⟨shift n ns.tree.nextId, path, source⟩, .at b, shift n x⟩) = z at hrel ⊢
  cases hrel with
  | none => exact h
  | @some made made' hb =>
    have hmounted := Tree.mounted_replace fit.stacked.toLinked (by rfl) hy
    refine ⟨h.id, h.settings, h.opened, hb, ?_, h.owner, h.below, ?_⟩
    · have hserial : shift n ns.tree.nextId ≠ n := shift_ne n _
      simp only [List.filter_append, List.map_append, h.mounts]
      simp [MountRecord.shift, hserial]
    · exact h.point_swapped fit hfinds habove hmounted.toSwapped
        (hmounted.keepsNames fit.stacked.toLinked hname) fun k _ hk => by rw [hmounted.face, if_neg hk]

theorem mount {path : AbsolutePath} (source : ExternalPath) (hp : path.Beside at_) (hR : R a b) :
    Bracketed n e m R at_ (ns.mount ext a ⟨source, path⟩).2 (nb.mount ext b ⟨source, path⟩).2 := by
  rw [Namespace.mount, Namespace.mount, h.check]
  cases hc : ns.check path with
  | error refused => exact h
  | ok _ =>
    obtain ⟨hbelow, habove⟩ := h.clear hp hc
    have past : ∀ {id}, ns.tree.Finds ns.tree.root path.names id → id ≠ e :=
      h.point.ne fit.stacked.toLinked hbelow
    have hagrees := h.resolve fit path hbelow ext
    simp only
    split
    · exact h
    cases (ext source.fs).getattr source.path with
    | error refused => exact h
    | ok attributes =>
      simp only
      split
      · exact h
      generalize hr : ns.tree.resolve ext path = outcome at hagrees ⊢
      generalize nb.tree.resolve ext path = outcome' at hagrees ⊢
      cases hagrees with
      | error refused => exact h
      | ok halike =>
        cases halike with
        | real => exact h
        | @directory id d d' hd =>
          obtain ⟨hfinds, hnode⟩ := Tree.finds_directory hr
          simp only
          rw [show d'.name = d.name from hd.name]
          exact h.cover fit source (past hfinds) hfinds habove
            (by rw [Tree.name?, hnode]; rfl) hR
        | @mount id x x' hx =>
          obtain ⟨hfinds, hnode⟩ := Tree.finds_mount hr
          simp only
          rw [show x'.name = x.name from hx.name]
          exact h.cover fit source (past hfinds) hfinds habove
            (by rw [Tree.name?, hnode]; rfl) hR

theorem unmount {path : AbsolutePath} (hp : path.Beside at_) :
    Bracketed n e m R at_ (ns.unmount ext path).2 (nb.unmount ext path).2 := by
  rw [Namespace.unmount, Namespace.unmount, place, place, h.check]
  cases hc : ns.check path with
  | error refused => exact h
  | ok _ =>
    obtain ⟨hbelow, habove⟩ := h.clear hp hc
    have hagrees := h.resolve fit path hbelow ext
    simp only
    generalize hr : ns.tree.resolve ext path = outcome at hagrees ⊢
    generalize nb.tree.resolve ext path = outcome' at hagrees ⊢
    cases hagrees with
    | error refused => exact h
    | ok halike =>
      cases halike with
      | directory _ => exact h
      | real => exact h
      | @mount id x x' hx =>
        obtain ⟨hfinds, hnode⟩ := Tree.finds_mount hr
        have hid : id ≠ e := h.point.ne fit.stacked.toLinked hbelow hfinds
        have hrel := h.tree.unmount fit.stacked.toSound fit.other.toSound hid (h.attached fit)
        have hserial : x'.record.serial = shift n x.record.serial := by cases hx; rfl
        simp only
        generalize hy : ns.tree.unmount id = y at hrel ⊢
        generalize nb.tree.unmount (shift n id) = z at hrel ⊢
        cases hrel with
        | none => exact h
        | some hb =>
          obtain ⟨x'', hunmounted⟩ := Tree.unmounted_unmount fit.stacked.toSound hy
          refine ⟨h.id, h.settings, h.opened, hb, ?_, h.owner, h.below, ?_⟩
          · show (nb.mounts.filter (·.serial ≠ x'.record.serial)).filter (·.serial ≠ n) =
              (ns.mounts.filter (·.serial ≠ x.record.serial)).map (MountRecord.shift n)
            rw [List.filter_comm, h.mounts, List.filter_map, hserial]
            refine congrArg _ (List.filter_congr fun r _ => ?_)
            simp only [Function.comp_apply, MountRecord.shift, ne_eq, shift_inj]
          · exact h.point_swapped fit hfinds habove hunmounted.toSwapped (hunmounted.keepsNames fit.stacked)
              fun k hk _ => by rw [hunmounted.face, if_neg hk]

/-! ## Turns -/

omit ext in
/-- **A turn whose paths are beside the mount leaves the namespaces side by side**, with readings of the clock that
correspond. -/
theorem turn {turn : Turn} {b : Time} (beside : ∀ path ∈ turn.operation.paths, path.Beside at_)
    (hR : ∀ k : Nat, R (turn.now + k) (b + k)) :
    Bracketed n e m R at_ (ns.turn turn).2 (nb.turn (turn.readAt b)).2 := by
  obtain ⟨ext, now, operation⟩ := turn
  have hnow : R now b := by simpa using hR 0
  cases operation with
  | createDirectory path => exact (h.createDirectory fit ext (beside path.1 List.mem_cons_self).1 hR).2
  | createDirectories path => exact h.createDirectories fit ext (beside path.1 List.mem_cons_self).1 path.2 hR
  | delete path => exact h.delete fit ext (beside path.1 List.mem_cons_self) hnow
  | rename source target =>
    have htarget := beside target.1 (List.mem_cons_of_mem _ List.mem_cons_self)
    exact h.rename fit ext (beside source.1 List.mem_cons_self) htarget.1 target.2 hnow
  | mount source path => exact h.mount fit ext source (beside path.1 List.mem_cons_self) hnow
  | unmount path => exact h.unmount fit ext (beside path.1 List.mem_cons_self)
  | listDirectory path => exact h
  | resolve path => exact h

omit ext in
/-- **Turns beside the mount leave the namespaces side by side.** -/
theorem run (turns : List (Turn × Time)) (beside : ∀ x ∈ turns, ∀ path ∈ x.1.operation.paths, path.Beside at_)
    (hR : ∀ x ∈ turns, ∀ k : Nat, R (x.1.now + k) (x.2 + k)) :
    Bracketed n e m R at_ (ns.run (turns.map fun x => .turn x.1))
        (nb.run (turns.map fun x => .turn (x.1.readAt x.2))) ∧
      Fit (ns.run (turns.map fun x => .turn x.1)) (nb.run (turns.map fun x => .turn (x.1.readAt x.2))) := by
  induction turns generalizing ns nb with
  | nil => exact ⟨h, fit⟩
  | cons x rest ih =>
    have hone := h.turn fit (beside x List.mem_cons_self) (hR x List.mem_cons_self)
    have fits := fit.passes (turn_passes fit.stacked x.1) (turn_passes fit.other (x.1.readAt x.2))
    exact ih hone fits (fun y hy => beside y (List.mem_cons_of_mem _ hy)) fun y hy => hR y (List.mem_cons_of_mem _ hy)

end Bracketed

end Namespace

end MountSpace

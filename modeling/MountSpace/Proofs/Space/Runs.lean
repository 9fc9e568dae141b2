/-
Runs of a namespace. Whatever is asked of a namespace, and whatever the mounted filesystems answer, its state changes by
edits of six kinds: a directory more, a directory less, a directory under another name, a mount over a vertex, a mount
gone, and the end (`Edit`). An edit tells all that its operation has made sure of beforehand, so an invariant of runs is
proved edit by edit (`Passes.keeps`) and opens no operation.

A run also has a history: the mountings and renames that succeeded, in order (`deeds`). No other edit moves a mount.

- `turn_passes`: one turn, as the edits it makes;
- `run_passes`: a run, as the edits it makes, with its history.
-/
import MountSpace.Proofs.Outline.Refinement
import MountSpace.Proofs.Tree.Ways

namespace MountSpace

/-- what can happen to a namespace: something is asked of it, or it is closed -/
inductive Event where
  | turn (turn : Turn)
  | close

/-- what has been done: something mounted, told by the record of it, or a directory renamed, told by the paths given -/
inductive Deed where
  | mounted (record : MountRecord)
  | renamed (source target : AbsolutePath)
  deriving DecidableEq, Repr

namespace Namespace

/-- the namespace after an event -/
def after (ns : Namespace) : Event → Namespace
  | .turn turn => (ns.turn turn).2
  | .close => { ns with isOpen := false }

/-- the deed that a turn is, if it succeeds; the record of a mounting takes the number of the next vertex as its serial
number -/
def turnDeed? (ns : Namespace) (turn : Turn) : Option Deed :=
  match turn.operation, (ns.turn turn).1 with
  | .mount source at_, .done (.ok _) => some (.mounted ⟨ns.tree.nextId, at_.1, source⟩)
  | .rename source target, .done (.ok _) => some (.renamed source.1 target.1)
  | _, _ => none

/-- the deed that an event is -/
def deed? (ns : Namespace) : Event → Option Deed
  | .turn turn => ns.turnDeed? turn
  | .close => none

/-- the namespace after some events -/
def run (ns : Namespace) (events : List Event) : Namespace := events.foldl after ns

/-- the deeds of some events, in order -/
def deeds (ns : Namespace) : List Event → List Deed
  | [] => []
  | event :: rest => (ns.deed? event).toList ++ (ns.after event).deeds rest

/-! ## Edits -/

/-- a change of a namespace, the deed it is, and what has been made sure of beforehand -/
inductive Edit (ns : Namespace) : Option Deed → Namespace → Prop where
  | grow {p : NodeId} {name : String} {tree : Tree} (edit : ns.tree.Grown p name tree)
      (valid : nameFault? name = none) : Edit ns none { ns with tree }
  | prune {id : NodeId} {tree : Tree} (edit : ns.tree.Pruned id tree) : Edit ns none { ns with tree }
  | rename {source target : AbsolutePath} {p id : NodeId} {name : String} {way beside : List String} {tree : Tree}
      (edit : ns.tree.Renamed id name tree) (below : id ∈ ns.tree.childrenOf p)
      (free : ∀ c, ns.tree.findChild p name = some c → c = id) (valid : nameFault? name = none)
      (leads : ns.tree.Leads id way) (origin : foldNames way = foldNames source.names)
      (wanted : target.names = beside ++ [name]) (within : foldNames beside = foldNames source.names.dropLast) :
      Edit ns (some (.renamed source target)) { ns with tree }
  | mount {e : NodeId} {m : MountNode} {way : List String} {tree : Tree} (edit : ns.tree.Mounted e m tree)
      (below : e ≠ ns.tree.root) (named : ns.tree.name? e = some m.name) (serial : m.record.serial = ns.tree.nextId)
      (leads : ns.tree.Leads e way) (point : foldNames way = foldNames m.record.point.names) :
      Edit ns (some (.mounted m.record)) { ns with tree, mounts := ns.mounts ++ [m.record] }
  | unmount {id : NodeId} {m : MountNode} {tree : Tree} (edit : ns.tree.Unmounted id m tree) :
      Edit ns none { ns with tree, mounts := ns.mounts.filter (·.serial ≠ m.record.serial) }
  | close : Edit ns none { ns with isOpen := false }

/-- a namespace comes to another by edits, with these deeds -/
inductive Passes (ns : Namespace) : List Deed → Namespace → Prop where
  | done : Passes ns [] ns
  | more {deeds : List Deed} {deed : Option Deed} {mid last : Namespace} (sofar : Passes ns deeds mid)
      (edit : Edit mid deed last) (stacked : last.tree.Stacked) : Passes ns (deeds ++ deed.toList) last

theorem Passes.one {ns last : Namespace} {deed : Option Deed} (edit : Edit ns deed last)
    (stacked : last.tree.Stacked) : Passes ns deed.toList last :=
  .more .done edit stacked

theorem Passes.trans {ns mid last : Namespace} {before later : List Deed} (h : Passes ns before mid)
    (hl : Passes mid later last) : Passes ns (before ++ later) last := by
  induction hl with
  | done =>
    rw [List.append_nil]
    exact h
  | more _ edit stacked ih =>
    rw [← List.append_assoc]
    exact ih.more edit stacked

theorem Passes.stacked {ns last : Namespace} {deeds : List Deed} (h : ns.tree.Stacked) (hp : Passes ns deeds last) :
    last.tree.Stacked := by
  cases hp with
  | done => exact h
  | more _ _ stacked => exact stacked

/-- **What every edit keeps holds of every namespace that edits lead to.** -/
theorem Passes.keeps {ns last : Namespace} {deeds : List Deed} (h : ns.tree.Stacked)
    {motive : Namespace → List Deed → Prop} (start : motive ns [])
    (step : ∀ mid sofar deed next, mid.tree.Stacked → next.tree.Stacked → Edit mid deed next → motive mid sofar →
      motive next (sofar ++ deed.toList)) (hp : Passes ns deeds last) : motive last deeds := by
  induction hp with
  | done => exact start
  | more sofar edit stacked ih => exact step _ _ _ _ (sofar.stacked h) stacked edit ih

end Namespace

/-! ## Ways of paths -/

namespace Tree

/-- names followed in the layout are those of the way, apart from case -/
theorem leads_of_follow {t : Tree} (h : t.Stacked) {names above : List String} {l s : Rose NodeId} (hl : t.Lays l)
    (ha : t.isAttached l.label = true) (hup : t.Leads l.label above) (hs : t.follow names l = some s) :
    ∃ way, t.Leads s.label (above ++ way) ∧ foldNames way = foldNames names := by
  induction names generalizing l above with
  | nil =>
    cases hs
    exact ⟨[], by rw [List.append_nil]; exact hup, rfl⟩
  | cons name rest ih =>
    obtain ⟨-, c, hc, hcs⟩ := follow_cons_eq_some hs
    have hcm := List.mem_of_find?_eq_some hc
    obtain ⟨hcl, hca⟩ := attached_child h hl ha hcm
    obtain ⟨n, hn⟩ := Option.isSome_iff_exists.1 ((t.node?_isSome _).trans (h.present hca))
    have hsame : Text.fold n.name = Text.fold name := by
      have hfound := List.find?_some hc
      rw [labelOf, hn] at hfound
      exact eq_of_beq hfound
    have hchild : c.label ∈ t.childrenOf l.label := by
      rw [hl l l.self_mem_subtrees]
      exact List.mem_map_of_mem hcm
    have hon := hup.child hchild (show t.name? c.label = some n.name by rw [name?, hn]; rfl)
    obtain ⟨way, hway, hfold⟩ := ih hcl hca hon hcs
    refine ⟨n.name :: way, by simpa using hway, ?_⟩
    rw [foldNames, foldNames, List.map_cons, List.map_cons, hsame]
    exact congrArg _ hfold

section Follow

variable {t : Tree} (h : t.Stacked) {names : List String} {s : Rose NodeId}
  (hs : t.follow names t.layout = some s)
include h hs

theorem leads_follow : ∃ way, t.Leads s.label way ∧ foldNames way = foldNames names := by
  have hroot : t.Leads t.layout.label [] := by
    rw [label_layout]
    exact .root
  exact leads_of_follow h h.lays_layout (attached_layout t) hroot hs

/-- the way of a path that names something ends below the root -/
theorem follow_ne_root (hne : names ≠ []) : s.label ≠ t.root := by
  intro hroot
  obtain ⟨way, hway, hfold⟩ := leads_follow h hs
  rw [hroot] at hway
  cases leads_unique h.toLinked hway .root
  cases names with
  | nil => exact hne rfl
  | cons name rest => cases hfold

omit hs in
/-- the last name of a path is looked up in the directory that the others lead to -/
theorem follow_last {before : List String} {name : String} {s : Rose NodeId}
    (hs : t.follow (before ++ [name]) t.layout = some s) : ∃ p, t.follow before t.layout = some p ∧
      s.label ∈ t.childrenOf p.label ∧ ∀ other c, t.findChild p.label other = some c →
        ∃ d, t.follow (before ++ [other]) t.layout = some d ∧ d.label = c := by
  rw [follow_append] at hs
  obtain ⟨p, hp, hps⟩ := Option.bind_eq_some_iff.1 hs
  obtain ⟨hstack, c, hfind, hc⟩ := follow_cons_eq_some hps
  cases hc
  have hpl := lays_follow h hp
  refine ⟨p, hp, ?_, ?_⟩
  · rw [hpl p p.self_mem_subtrees]
    exact List.mem_map_of_mem (List.mem_of_find?_eq_some hfind)
  · intro other c hc
    rw [findChild_eq_find? h hpl (attached_follow h hp)] at hc
    obtain ⟨d, hd, hdc⟩ := Option.map_eq_some_iff.1 hc
    refine ⟨d, ?_, hdc⟩
    rw [follow_append, hp, Option.bind_some, follow, if_pos hstack, hd]
    rfl

end Follow

end Tree

/-! ## Operations as edits -/

namespace Namespace

theorem checkBelongs_eq_ok {ns : Namespace} {path : AbsolutePath} :
    ns.checkBelongs path = .ok () ↔ path.owner = ns.id := by
  rw [checkBelongs]
  split
  · next h => simp [h]
  · next h => simp [h]

/-- a path is accepted if it is the namespace's own and the namespace is open -/
theorem check_eq_ok {ns : Namespace} {path : AbsolutePath} :
    ns.check path = .ok () ↔ ns.isOpen = true ∧ path.owner = ns.id := by
  rw [check]
  split
  · next h => rw [checkBelongs_eq_ok, and_iff_right h]
  · next h => simp [h]

section Operations

variable {ns : Namespace} (h : ns.tree.Stacked) (ext : External) (now : Time)
include h

theorem createDirectory_passes {path : AbsolutePath} (hv : checkNames path.names = .ok ()) :
    Passes ns [] (ns.createDirectory ext now path).2 := by
  rw [createDirectory]
  cases ns.check path with
  | error e => exact .done
  | ok _ =>
    rcases path_cases path with ⟨-, hparent, hlast⟩ | ⟨parent, name, hnames, hparent, hlast⟩
    · rw [hparent, hlast]
      exact .done
    rw [hparent, hlast]
    have hname : nameFault? name = none := checkNames_eq_ok.1 hv name (by simp [hnames])
    simp only
    cases hr : ns.tree.resolve ext ⟨path.owner, parent⟩ with
    | error e => exact .done
    | ok place =>
      cases place with
      | mount id m => exact .done
      | real n at_ => exact .done
      | directory id dir =>
        obtain ⟨s, hs, rfl, -⟩ := Tree.directory_of_resolve h hr
        simp only
        cases hu : ns.tree.append s.label (.directory (.new name now)) (now + 1) with
        | none => exact .done
        | some made =>
          obtain ⟨id, u⟩ := made
          have hgrown := Tree.grown_append h.toLinked hu
          obtain ⟨u', hu', hstacked, -⟩ := Tree.append_collapse h hs (.new name now) hgrown.free (now + 1)
          rw [hu] at hu'
          cases hu'
          exact .one (.grow hgrown hname) hstacked

theorem createAlong_passes {names : List String} (walked : List String) (now : Time)
    (hv : checkNames (walked ++ names) = .ok ()) : Passes ns [] (createAlong ext now walked names ns).2 := by
  induction names generalizing ns walked now with
  | nil => exact .done
  | cons name rest ih =>
    have hsplit : walked ++ name :: rest = (walked ++ [name]) ++ rest := by simp
    have hvr : checkNames ((walked ++ [name]) ++ rest) = .ok () := hsplit ▸ hv
    have hvh : checkNames (AbsolutePath.names ⟨ns.id, walked ++ [name]⟩) = .ok () := (checkNames_append hvr).1
    have hmade := createDirectory_passes h ext now hvh
    rw [createAlong]
    cases ns.tree.resolveOrMissing ext ⟨ns.id, walked ++ [name]⟩ with
    | error e => exact .done
    | ok existing =>
      cases existing with
      | some place =>
        have hblocked : Passes ns [] (if rest = [] then
            (.error (.alreadyExists (AbsolutePath.text ⟨ns.id, walked ++ [name]⟩)), ns)
            else createAlong ext now (walked ++ [name]) rest ns).2 := by
          split
          · exact .done
          · exact ih h (walked ++ [name]) now hvr
        cases place with
        | directory id dir => exact ih h (walked ++ [name]) now hvr
        | mount id m => exact hblocked
        | real n at_ => exact hblocked
      | none =>
        cases hd : ns.createDirectory ext now ⟨ns.id, walked ++ [name]⟩ with
        | mk answer made =>
          rw [hd] at hmade
          have hon := hmade.trans (ih (hmade.stacked h) (walked ++ [name]) (now + 2) hvr)
          cases answer with
          | ok _ => exact hon
          | error e =>
            cases e with
            | alreadyExists what => exact hon
            | _ => exact hmade

theorem createDirectories_passes {path : AbsolutePath} (hv : checkNames path.names = .ok ()) :
    Passes ns [] (ns.createDirectories ext now path).2 := by
  rw [createDirectories]
  cases ns.check path with
  | error e => exact .done
  | ok _ => exact createAlong_passes h ext [] now hv

theorem delete_passes (path : AbsolutePath) : Passes ns [] (ns.delete ext now path).2 := by
  rw [delete]
  cases ns.check path with
  | error e => exact .done
  | ok _ =>
    rcases path_cases path with ⟨hnames, -, -⟩ | ⟨parent, name, hnames, -, -⟩
    · rw [AbsolutePath.isRoot, hnames]
      exact .done
    rw [AbsolutePath.isRoot, hnames]
    have hroot : (parent ++ [name]).isEmpty = false := by simp
    simp only [hroot, Bool.false_eq_true, if_false]
    cases hr : ns.tree.resolve ext path with
    | error e => exact .done
    | ok place =>
      cases place with
      | mount id m => exact .done
      | real n at_ => exact .done
      | directory id dir =>
        obtain ⟨s, hs, rfl, hd⟩ := Tree.directory_of_resolve h hr
        simp only
        cases hu : ns.tree.deleteIfEmpty s.label now with
        | none =>
          simp only
          split
          · exact .done
          · exact .done
        | some u =>
          have hpruned := Tree.pruned_delete h.toLinked hu
          obtain ⟨u', hu', hstacked, -⟩ := Tree.delete_collapse h (hnames ▸ hs) hd hpruned.bare now
          rw [hu] at hu'
          cases hu'
          exact .one (.prune hpruned) hstacked

/-- an operation that is refused leaves the namespace as it is, and one that succeeds is this deed -/
def Does (ns : Namespace) (outcome : Except FsError Unit × Namespace) (deed : Deed) : Prop :=
  (∃ e, outcome.1 = .error e ∧ outcome.2 = ns) ∨
    outcome.1 = .ok () ∧ Edit ns (some deed) outcome.2 ∧ outcome.2.tree.Stacked

omit h in
theorem Does.refused (e : FsError) (deed : Deed) : ns.Does (.error e, ns) deed := .inl ⟨e, rfl, rfl⟩

theorem rename_does (source : AbsolutePath) {target : AbsolutePath} (hv : checkNames target.names = .ok ()) :
    ns.Does (ns.rename ext now source target) (.renamed source target) := by
  rw [rename]
  cases ns.check source with
  | error e => exact .refused e _
  | ok _ =>
    cases ns.checkBelongs target with
    | error e => exact .refused e _
    | ok _ =>
      rcases path_cases source with ⟨-, hsp, hsl⟩ | ⟨parent, a, hsource, hsp, hsl⟩
      · rw [hsp]
        exact .refused _ _
      rcases path_cases target with ⟨-, htp, htl⟩ | ⟨others, b, htarget, htp, htl⟩
      · rw [hsp, htp, htl]
        exact .refused _ _
      rw [hsp, htp, htl]
      simp only
      cases hr : ns.tree.resolve ext source with
      | error e => exact .refused e _
      | ok place =>
        cases place with
        | mount id m => exact .refused _ _
        | real n at_ => exact .refused _ _
        | directory id dir =>
          obtain ⟨s, hs, rfl, hd⟩ := Tree.directory_of_resolve h hr
          simp only
          cases hsame : AbsolutePath.same ⟨source.owner, parent⟩ ⟨target.owner, others⟩ with
          | false => exact .refused _ _
          | true =>
            have hfold : foldNames parent = foldNames others := (AbsolutePath.same_iff.1 hsame).2
            simp only [Bool.not_true, Bool.false_eq_true, if_false]
            cases he : ns.tree.resolveOrMissing ext target with
            | error e => exact .refused e _
            | ok existing =>
              simp only
              split
              · exact .refused _ _
              next htaken =>
              obtain ⟨u, hu, hstacked, -⟩ := Tree.rename_collapse h hs hd b now
              obtain ⟨p, hp, hchild, hlookup⟩ := Tree.follow_last h (hsource ▸ hs)
              obtain ⟨way, hway, hwayfold⟩ := Tree.leads_follow h hs
              -- a child of the new name would have been found at the target
              have hfree : ∀ c, ns.tree.findChild p.label b = some c → c = s.label := by
                intro c hc
                obtain ⟨d, hd, rfl⟩ := hlookup b c hc
                have hfollow : ns.tree.follow target.names ns.tree.layout = some d := by
                  rw [← hd, htarget]
                  refine Tree.follow_congr _ ?_ _
                  rw [foldNames_append, foldNames_append, hfold]
                obtain ⟨n', -, hfound⟩ := Tree.resolve_of_follow h ext hfollow
                rw [Tree.resolveOrMissing, hfound] at he
                cases he
                have hid : (Place.ofNode d.label n').nodeId? = some d.label := by cases n' <;> rfl
                simpa [hid] using htaken
              have hname : nameFault? b = none := checkNames_eq_ok.1 hv b (by simp [htarget])
              have hwithin : foldNames others = foldNames source.names.dropLast := by
                rw [hsource, List.dropLast_concat, hfold]
              rw [hu]
              exact .inr ⟨rfl, .rename (Tree.renamed_rename hu) hchild hfree hname hway hwayfold htarget hwithin,
                hstacked⟩

theorem cover_does (source : ExternalPath) {path : AbsolutePath} (hpath : path.names ≠ []) {s : Rose NodeId}
    (hs : ns.tree.follow path.names ns.tree.layout = some s) {node : Node} (hn : ns.tree.node? s.label = some node) :
    ns.Does (ns.cover now ⟨source, path⟩ s.label node.name) (.mounted ⟨ns.tree.nextId, path, source⟩) := by
  obtain ⟨u, hu, hstacked, -⟩ := Tree.mount_collapse h hs hn ⟨ns.tree.nextId, path, source⟩ now
  obtain ⟨way, hway, hfold⟩ := Tree.leads_follow h hs
  have hmounted := Tree.mounted_replace h.toLinked (by rfl) hu
  have hname : ns.tree.name? s.label = some node.name := by rw [Tree.name?, hn]; rfl
  rw [cover]
  simp only
  rw [hu]
  exact .inr ⟨rfl, .mount hmounted (Tree.follow_ne_root h hs hpath) hname rfl hway hfold, hstacked⟩

theorem mount_does (source : ExternalPath) (path : AbsolutePath) :
    ns.Does (ns.mount ext now ⟨source, path⟩) (.mounted ⟨ns.tree.nextId, path, source⟩) := by
  rw [mount]
  cases ns.check path with
  | error e => exact .refused e _
  | ok _ =>
    simp only
    split
    · exact .refused _ _
    next hroot =>
    have hpath : path.names ≠ [] := by simpa [AbsolutePath.isRoot] using hroot
    cases (ext source.fs).getattr source.path with
    | error e => exact .refused e _
    | ok attributes =>
      simp only
      split
      · exact .refused _ _
      cases hr : ns.tree.resolve ext path with
      | error e => exact .refused e _
      | ok place =>
        cases place with
        | real n at_ => exact .refused _ _
        | directory id dir =>
          obtain ⟨s, hs, rfl, hd⟩ := Tree.directory_of_resolve h hr
          have hcover := cover_does h now source hpath hs hd
          exact hcover
        | mount id m =>
          obtain ⟨s, hs, rfl, hm⟩ := Tree.mount_of_resolve h hr
          have hcover := cover_does h now source hpath hs hm
          exact hcover

theorem unmount_passes (path : AbsolutePath) : Passes ns [] (ns.unmount ext path).2 := by
  rw [unmount, place]
  cases ns.check path with
  | error e => exact .done
  | ok _ =>
    simp only
    cases hr : ns.tree.resolve ext path with
    | error e => exact .done
    | ok place =>
      cases place with
      | directory id dir => exact .done
      | real n at_ => exact .done
      | mount id m =>
        obtain ⟨s, hs, rfl, hm⟩ := Tree.mount_of_resolve h hr
        obtain ⟨u, hu, hstacked, -⟩ := Tree.unmount_collapse h hs hm
        obtain ⟨m', hunmounted⟩ := Tree.unmounted_unmount h.toSound hu
        have hmm := hunmounted.mount
        rw [hm] at hmm
        cases hmm
        simp only [hu]
        exact .one (.unmount hunmounted) hstacked

/-! ## Turns and runs -/

omit h ext now in
theorem Does.passes {outcome : Except FsError Unit × Namespace} {deed : Deed} (hd : ns.Does outcome deed) :
    Passes ns (match outcome.1 with | .ok _ => [deed] | .error _ => []) outcome.2 := by
  rcases hd with ⟨e, he, hns⟩ | ⟨hok, edit, stacked⟩
  · rw [he, hns]
    exact .done
  · rw [hok]
    exact .one edit stacked

omit ext now in
/-- **A turn is the edits it makes**, and the deed it is. -/
theorem turn_passes (turn : Turn) : Passes ns (ns.turnDeed? turn).toList (ns.turn turn).2 := by
  obtain ⟨ext, now, operation⟩ := turn
  cases operation with
  | createDirectory path => exact createDirectory_passes h ext now path.2
  | createDirectories path => exact createDirectories_passes h ext now path.2
  | delete path => exact delete_passes h ext now path.1
  | rename source target =>
    have hp := (rename_does h ext now source.1 target.2).passes
    unfold turnDeed? turn Answer.ofChange
    simp only
    cases ha : (ns.rename ext now source.1 target.1).1 with
    | ok _ => rw [ha] at hp; exact hp
    | error e => rw [ha] at hp; exact hp
  | mount source at_ =>
    have hp := (mount_does h ext now source at_.1).passes
    unfold turnDeed? turn Answer.ofChange
    simp only
    cases ha : (ns.mount ext now ⟨source, at_.1⟩).1 with
    | ok _ => rw [ha] at hp; exact hp
    | error e => rw [ha] at hp; exact hp
  | unmount path => exact unmount_passes h ext path.1
  | listDirectory path => exact .done
  | resolve path => exact .done

omit h ext now in
/-- **A run is the edits it makes**, and its history the deeds among them. -/
theorem run_passes (h : ns.tree.Stacked) (events : List Event) : Passes ns (ns.deeds events) (ns.run events) := by
  induction events generalizing ns with
  | nil => exact .done
  | cons event rest ih =>
    have hone : Passes ns (ns.deed? event).toList (ns.after event) := by
      cases event with
      | turn turn => exact turn_passes h turn
      | close => exact .one .close h
    exact hone.trans (ih (hone.stacked h))

end Operations

end Namespace

end MountSpace

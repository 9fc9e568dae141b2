/-
Resolution is exact and contained. A path leads to a vertex exactly if the vertex is in view at its names, so paths equal
apart from case lead to the same one. It leads to an object exactly if some of its first names end at a mount in view and
every place on the way from the mount's source exists; the object is then in the mount's filesystem, and its components
are those of the source and one plain component for each name that is left, as the path spells it. The names of a path are
never refused at the boundary of a mount: a path is refused as an escape only if a mounted filesystem says so.

Main result: `run_exact`.
-/
import MountSpace.Proofs.Space.Names
import MountSpace.Proofs.Tree.Reaching

namespace MountSpace

namespace FsPath

/-- valid names read one after the other from a path are one plain component each -/
theorem components_foldl_joinName (base : FsPath) {names : List String} (hvalid : ∀ n ∈ names, nameFault? n = none) :
    (names.foldl joinName base).components = base.components ++ names.map fun n => .normal (Text.encode n) := by
  induction names generalizing base with
  | nil => simp
  | cons name rest ih =>
    rw [List.forall_mem_cons] at hvalid
    rw [List.foldl_cons, ih (base.joinName name) hvalid.2, components_joinName base hvalid.1]
    simp

end FsPath

/-- a refusal as an escape has been told so by a filesystem -/
theorem refusal_permissionDenied {path : AbsolutePath} {walked : List String} {e : FsError} {text : String}
    (h : Outline.refusal path walked e = .permissionDenied text) :
    (∃ what, e = .escapesRoot what) ∨ ∃ what, e = .permissionDenied what := by
  unfold Outline.refusal at h
  split at h
  · cases h
  · cases e with
    | escapesRoot what => exact .inl ⟨what, rfl⟩
    | permissionDenied what => exact .inr ⟨what, rfl⟩
    | _ => cases h

namespace Tree

/-- the names go through a mount in view, from its source on, and every place behind the source on the way exists -/
structure Crosses (t : Tree) (ext : External) (names front back : List String) (m : MountNode) : Prop where
  cut : names = front ++ back
  beyond : back ≠ []
  point : ∃ v, t.InView v front ∧ t.node? v = some (.mount m)
  told : ∀ run, run ≠ [] → run <+: back →
    ∃ attributes, (ext m.record.source.fs).getattr (run.foldl .joinName m.record.source.path) = .ok attributes

/-- resolution of one path is exact and contained -/
structure ResolvesExactly (t : Tree) (ext : External) (path : NamedPath) : Prop where
  /-- a vertex is found exactly where it is in view -/
  vertex : ∀ v, (∃ place, t.resolve ext path.1 = .ok place ∧ place.nodeId? = some v) ↔ t.InView v path.1.names
  /-- an equal path finds the same vertex, whatever the filesystems answer then -/
  alike : ∀ (other : NamedPath) (later : External) (v : NodeId), path.1.same other.1 = true →
    ((∃ place, t.resolve ext path.1 = .ok place ∧ place.nodeId? = some v) ↔
      ∃ place, t.resolve later other.1 = .ok place ∧ place.nodeId? = some v)
  /-- an object is found exactly behind a mount in view -/
  object : (∃ name at_, t.resolve ext path.1 = .ok (.real name at_)) ↔
    ∃ front back m, t.Crosses ext path.1.names front back m
  /-- the object is where the names lead from the source of the mount -/
  contained : ∀ front back m name at_, t.Crosses ext path.1.names front back m →
    t.resolve ext path.1 = .ok (.real name at_) → at_.fs = m.record.source.fs ∧ back.getLast? = some name ∧
      at_.path.components = m.record.source.path.components ++ back.map fun n => .normal (Text.encode n)
  /-- no name of the path is refused at a boundary -/
  unrefused : ∀ (source : FsPath) (name : String), name ∈ path.1.names →
    source.containedJoin name = some (source.joinName name)
  /-- a refusal as an escape is the answer of a filesystem -/
  refused : ∀ text, t.resolve ext path.1 = .error (.permissionDenied text) → ∃ front run rest v m,
    path.1.names = front ++ run ++ rest ∧ run ≠ [] ∧ t.InView v front ∧ t.node? v = some (.mount m) ∧
      ((∃ what, (ext m.record.source.fs).getattr (run.foldl .joinName m.record.source.path) =
          .error (.escapesRoot what)) ∨
        ∃ what, (ext m.record.source.fs).getattr (run.foldl .joinName m.record.source.path) =
          .error (.permissionDenied what))

section Exact

variable {t : Tree} {ext : External}

theorem paved_iff {m : MountNode} {names : List String} : m.record.source.Paved ext names ↔
    ∀ run, run ≠ [] → run <+: names →
      ∃ attributes, (ext m.record.source.fs).getattr (run.foldl .joinName m.record.source.path) = .ok attributes := by
  simp only [ExternalPath.Paved, ask_eq_ok, foldl_below]

variable (h : t.Linked) (ha : t.Apart)
include h ha

theorem resolve_vertex_iff (path : AbsolutePath) (v : NodeId) :
    (∃ place, t.resolve ext path = .ok place ∧ place.nodeId? = some v) ↔ t.InView v path.names := by
  rw [← finds_iff_inView h ha]
  constructor
  · rintro ⟨place, hr, hv⟩
    exact (finds_of_resolve hr hv).1
  · intro hv
    obtain ⟨n, hn⟩ := ((finds_iff_inView h ha).1 hv).present h
    refine ⟨.ofNode v n, hv.resolve hn ext, ?_⟩
    cases n <;> rfl

/-- a path through a mount whose way exists leads to the object at its end -/
theorem Crosses.resolve {path : AbsolutePath} (hvalid : ∀ n ∈ path.names, nameFault? n = none)
    {front back : List String} {m : MountNode} (hc : t.Crosses ext path.names front back m) :
    ∃ name, back.getLast? = some name ∧
      t.resolve ext path = .ok (.real name ⟨m.record.source.fs, back.foldl .joinName m.record.source.path⟩) := by
  obtain ⟨v, hv, hm⟩ := hc.point
  obtain ⟨name, hlast⟩ := Option.isSome_iff_exists.1 (List.getLast?_isSome.2 hc.beyond)
  obtain ⟨before, hback⟩ := List.getLast?_eq_some_iff.1 hlast
  have hnames : ∀ n ∈ before ++ [name], nameFault? n = none := by
    intro n hn
    refine hvalid n ?_
    rw [hc.cut, hback]
    exact List.mem_append_right _ hn
  refine ⟨name, hlast, ?_⟩
  rw [(hv.finds h ha).resolve_handed hm hc.cut ext]
  have hplace : (Place.mount v m).external? = some m.record.source := rfl
  rcases walk_outside t ext path front hplace (hback ▸ hnames) with
    ⟨-, p, hok, -⟩ | ⟨short, missed, after, e, hcut, -, hask, -⟩
  · rw [hok]
    rw [hback] at hok ⊢
    rw [walk_external_ok hplace hnames hok, foldl_below]
  · have hprefix : short ++ [missed] <+: back := ⟨after, by rw [hcut]; simp⟩
    rw [paved_iff.2 hc.told (short ++ [missed]) (by simp) hprefix] at hask
    cases hask

/-- a path that leads to an object goes through a mount -/
theorem crosses_of_resolve {path : AbsolutePath} (hvalid : ∀ n ∈ path.names, nameFault? n = none) {name : String}
    {at_ : ExternalPath} (hr : t.resolve ext path = .ok (.real name at_)) :
    ∃ front back m, t.Crosses ext path.names front back m := by
  obtain ⟨root, hroot⟩ := Option.isSome_iff_exists.1 ((t.node?_isSome t.root).trans (h.present (attached_root t)))
  rcases resolve_cases hroot path with
    ⟨v, n, -, -, hend⟩ | ⟨walked, hend⟩ | ⟨front, back, v, m, hcut, hbeyond, hv, hm, hend⟩
  · rw [hend] at hr
    cases n <;> cases hr
  · rw [hend] at hr
    cases hr
  · refine ⟨front, back, m, hcut, hbeyond, ⟨v, hv.inView ha, hm⟩, paved_iff.1 ?_⟩
    rw [hend] at hr
    have hplace : (Place.mount v m).external? = some m.record.source := rfl
    have hback : ∀ n ∈ back, nameFault? n = none := fun n hn => hvalid n (hcut ▸ List.mem_append_right _ hn)
    rcases walk_outside t ext path front hplace hback with ⟨hpaved, -⟩ | ⟨short, missed, after, e, -, -, -, herror⟩
    · exact hpaved
    · rw [herror] at hr
      cases hr

/-- a path refused as an escape has been refused by a filesystem -/
theorem refused_of_resolve {path : AbsolutePath} (hvalid : ∀ n ∈ path.names, nameFault? n = none) {text : String}
    (hr : t.resolve ext path = .error (.permissionDenied text)) : ∃ front run rest v m,
      path.names = front ++ run ++ rest ∧ run ≠ [] ∧ t.InView v front ∧ t.node? v = some (.mount m) ∧
      ((∃ what, (ext m.record.source.fs).getattr (run.foldl .joinName m.record.source.path) =
          .error (.escapesRoot what)) ∨
        ∃ what, (ext m.record.source.fs).getattr (run.foldl .joinName m.record.source.path) =
          .error (.permissionDenied what)) := by
  obtain ⟨root, hroot⟩ := Option.isSome_iff_exists.1 ((t.node?_isSome t.root).trans (h.present (attached_root t)))
  rcases resolve_cases hroot path with
    ⟨v, n, -, -, hend⟩ | ⟨walked, hend⟩ | ⟨front, back, v, m, hcut, -, hv, hm, hend⟩
  · rw [hend] at hr
    cases hr
  · rw [hend] at hr
    cases hr
  · rw [hend] at hr
    have hplace : (Place.mount v m).external? = some m.record.source := rfl
    have hback : ∀ n ∈ back, nameFault? n = none := fun n hn => hvalid n (hcut ▸ List.mem_append_right _ hn)
    rcases walk_outside t ext path front hplace hback with
      ⟨-, p, hok, -⟩ | ⟨short, missed, after, e, hrun, -, hask, herror⟩
    · rw [hok] at hr
      cases hr
    · rw [herror] at hr
      rw [foldl_below] at hask
      have hanswer := ask_eq_error.1 hask
      refine ⟨front, short ++ [missed], after, v, m, by rw [hcut, hrun]; simp, by simp, hv.inView ha, hm, ?_⟩
      rcases refusal_permissionDenied (Except.error.inj hr) with ⟨what, rfl⟩ | ⟨what, rfl⟩
      · exact .inl ⟨what, hanswer⟩
      · exact .inr ⟨what, hanswer⟩

theorem resolvesExactly (ext : External) (path : NamedPath) : t.ResolvesExactly ext path := by
  have hvalid := checkNames_eq_ok.1 path.2
  refine ⟨resolve_vertex_iff h ha path.1, ?_, ⟨?_, ?_⟩, ?_, ?_, ?_⟩
  · intro other later v hsame
    have hfold := (AbsolutePath.same_iff.1 hsame).2
    rw [resolve_vertex_iff h ha, resolve_vertex_iff h ha, inView_congr hfold]
  · rintro ⟨name, at_, hr⟩
    exact crosses_of_resolve h ha hvalid hr
  · rintro ⟨front, back, m, hc⟩
    obtain ⟨name, -, hr⟩ := hc.resolve h ha hvalid
    exact ⟨name, _, hr⟩
  · intro front back m name at_ hc hr
    obtain ⟨last, hlast, hok⟩ := hc.resolve h ha hvalid
    rw [hok] at hr
    cases hr
    refine ⟨rfl, hlast, FsPath.components_foldl_joinName _ fun n hn => hvalid n ?_⟩
    rw [hc.cut]
    exact List.mem_append_right _ hn
  · intro source name hname
    exact FsPath.containedJoin_of_name source (hvalid name hname)
  · intro text hr
    exact refused_of_resolve h ha hvalid hr

end Exact

end Tree

namespace Namespace

/-- **Resolution is exact and contained.** Whatever has happened to a fresh namespace and whatever the filesystems answer,
a path leads to the one vertex in view at its names; or else to the object behind a mount in view that the names left
over lead to from the mount's source, by plain components in the path's spelling, if each place on the way exists. -/
theorem run_exact (id : NamespaceId) (settings : Settings) (now : Time) (events : List Event) (ext : External)
    (path : NamedPath) : ((new id settings now).run events).tree.ResolvesExactly ext path := by
  have hfresh := (good_new id settings now).tree
  have hstacked := (run_passes hfresh events).stacked hfresh
  exact Tree.resolvesExactly hstacked.toLinked (run_apart id settings now events).1 ext path

end Namespace

end MountSpace

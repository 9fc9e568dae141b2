/-
Paths that end alike. What a path comes to is told by its address, which is the vertex it ends at and the place outside
that it stands for, or by the kind of its refusal; the times of the vertex and its name are left out (`SameEnd`). Two
paths, of one tree or of two, end alike if they reach one vertex and from there on the names find the same vertices in
both (`Finds.sameEnd`). Behind a mount it is the mounted filesystem that decides, and it is asked for the same places.

Two changes of a tree are followed through the look-ups they change and those they do not:
- a directory more ends no path differently but the one to it (`Grown.sameEnd`);
- a directory under another name is found at the new name, with all that is below it, and at the old name nothing is
  found any more (`Renaming.sameEnd_moved`, `Renaming.vacated`); all other paths end where they did
  (`Renaming.sameEnd_beside`).
-/
import MountSpace.Proofs.Space.Readings

namespace MountSpace

/-- the vertex of a place and the place outside that it stands for -/
def Place.address (place : Place) : Option NodeId × Option ExternalPath := (place.nodeId?, place.external?)

theorem Place.address_ofNode (id : NodeId) (n : Node) :
    (Place.ofNode id n).address = (some id, n.act.map fun act => act.1.source) := by
  cases n <;> rfl

/-- the same vertex or the same place outside, or refusals of one kind -/
def SameEnd (r r' : Except FsError Place) : Prop := SameReading (r.map Place.address) (r'.map Place.address)

theorem SameEnd.trans {r r' r'' : Except FsError Place} (h : SameEnd r r') (h' : SameEnd r' r'') : SameEnd r r'' :=
  SameReading.trans h h'

theorem SameEnd.of_eq {r r' : Except FsError Place} (h : r = r') : SameEnd r r' := SameReading.of_eq (by rw [h])

theorem SameEnd.ok {p p' : Place} (h : p.address = p'.address) : SameEnd (.ok p) (.ok p') := h

theorem SameEnd.error {e e' : FsError} (h : e.ctorIdx = e'.ctorIdx) : SameEnd (.error e) (.error e') := h

namespace Tree

/-! ## From one vertex on -/

section Walk

variable {t u : Tree} {ext : External} {path path' : AbsolutePath}

/-- from one place outside, whatever the tree and whatever the words of a refusal -/
theorem walk_sameEnd {names walked walked' : List String} {place place' : Place} {at_ : ExternalPath}
    (hplace : place.external? = some at_) (hsame : place.address = place'.address)
    (hvalid : ∀ n ∈ names, nameFault? n = none) :
    SameEnd (t.walk ext path walked place names) (u.walk ext path' walked' place' names) := by
  induction names generalizing walked walked' place place' at_ with
  | nil => exact .ok hsame
  | cons name rest ih =>
    obtain ⟨hname, hrest⟩ := List.forall_mem_cons.1 hvalid
    have hplace' : place'.external? = some at_ := (congrArg Prod.snd hsame).symm.trans hplace
    rw [walk, walk, step_eq_told t path walked (Place.asks_of_external hplace hname),
      step_eq_told u path' walked' (Place.asks_of_external hplace' hname)]
    cases ask (at_.below name) ext with
    | error e => exact .error (ctorIdx_refusal ..)
    | ok _ =>
      have hreal : (Place.real name (at_.below name)).external? = some (at_.below name) := rfl
      exact ih hreal rfl hrest

/-- a directory that is still there is still a directory if no mount has been made or taken away -/
theorem directory_of_acts {k : NodeId} {d : Directory} (hacts : ∀ v, u.actAt v = t.actAt v)
    (hkept : (u.node? k).isSome) (hd : t.node? k = some (.directory d)) : ∃ d', u.node? k = some (.directory d') := by
  obtain ⟨n, hn⟩ := Option.isSome_iff_exists.1 hkept
  have hact := hacts k
  rw [actAt, actAt, hd, hn] at hact
  cases n with
  | directory d' => exact ⟨d', hn⟩
  | mount m => cases hact

/-- **Where look-ups agree, paths end alike.** One path reaches a vertex in one tree and another path reaches it in the
other tree. If the names that are left find the same from there in both, and the mounts are the same, then both paths
end alike. -/
theorem Finds.sameEnd {x : NodeId} {front front' rest : List String} (h : t.Finds t.root front x)
    (h' : u.Finds u.root front' x) (hx : (t.node? x).isSome)
    (hsame : ∀ way v, way <+: rest → (t.Finds x way v ↔ u.Finds x way v))
    (hacts : ∀ v, u.actAt v = t.actAt v) (hkept : ∀ v, (t.node? v).isSome → (u.node? v).isSome)
    (hvalid : ∀ n ∈ rest, nameFault? n = none) (hnames : path.names = front ++ rest)
    (hnames' : path'.names = front' ++ rest) (ext : External) :
    SameEnd (t.resolve ext path) (u.resolve ext path') := by
  obtain ⟨node, hnode⟩ := Option.isSome_iff_exists.1 hx
  have act : ∀ {v n n'}, t.node? v = some n → u.node? v = some n' → n'.act = n.act := by
    intro v n n' hn hn'
    have hact := hacts v
    rwa [actAt, actAt, hn, hn', Option.bind_some, Option.bind_some] at hact
  have kept : ∀ {v n}, t.node? v = some n → ∃ n', u.node? v = some n' :=
    fun hn => Option.isSome_iff_exists.1 (hkept _ (Option.isSome_of_eq_some hn))
  cases fate hnode rest with
  | @found _ v n finds hn =>
    obtain ⟨n', hn'⟩ := kept hn
    have hend : t.Finds t.root path.names v := hnames ▸ finds_append.2 ⟨x, h, finds⟩
    have hend' : u.Finds u.root path'.names v :=
      hnames' ▸ finds_append.2 ⟨x, h', (hsame rest v (List.prefix_refl rest)).1 finds⟩
    rw [hend.resolve hn, hend'.resolve hn']
    exact .ok (by rw [Place.address_ofNode, Place.address_ofNode, act hn hn'])
  | @absent way more name p d finds hd free =>
    obtain ⟨d', hn'⟩ := directory_of_acts hacts (hkept p (Option.isSome_of_eq_some hd)) hd
    have finds' : u.Finds x way p := (hsame way p (List.prefix_append way _)).1 finds
    -- a child found in the other tree would be found in this one
    have free' : u.findChild p name = none := by
      cases hc : u.findChild p name with
      | none => rfl
      | some c =>
        have hpre : way ++ [name] <+: way ++ name :: more := (List.prefix_append_right_inj way).2 ⟨more, rfl⟩
        obtain ⟨q, hq, hlast⟩ := finds_append.1 ((hsame (way ++ [name]) c hpre).2 (finds'.snoc hn' hc))
        cases hq.same finds rfl
        cases hlast with
        | down _ child _ =>
          rw [free] at child
          cases child
    have hcut : path.names = (front ++ way) ++ name :: more := by rw [hnames, List.append_assoc]
    have hcut' : path'.names = (front' ++ way) ++ name :: more := by rw [hnames', List.append_assoc]
    rw [(finds_append.2 ⟨x, h, finds⟩).resolve_absent hd free hcut,
      (finds_append.2 ⟨x, h', finds'⟩).resolve_absent hn' free' hcut']
    exact .error rfl
  | @handed way more name v m finds hm =>
    obtain ⟨n', hn'⟩ := kept hm
    have hact := act hm hn'
    obtain ⟨m', rfl⟩ : ∃ m', n' = .mount m' := by
      cases n' with
      | directory d => cases hact
      | mount m' => exact ⟨m', rfl⟩
    have finds' : u.Finds x way v := (hsame way v (List.prefix_append way _)).1 finds
    have hcut : path.names = (front ++ way) ++ name :: more := by rw [hnames, List.append_assoc]
    have hcut' : path'.names = (front' ++ way) ++ name :: more := by rw [hnames', List.append_assoc]
    rw [(finds_append.2 ⟨x, h, finds⟩).resolve_handed hm hcut,
      (finds_append.2 ⟨x, h', finds'⟩).resolve_handed hn' hcut']
    have hplace : (Place.ofNode v (.mount m)).external? = some m.record.source := rfl
    refine walk_sameEnd hplace ?_ fun n hn => hvalid n (List.mem_append_right _ hn)
    exact (Place.address_ofNode v (.mount m)).trans (by rw [← hact, ← Place.address_ofNode]; rfl)

/-- the same from the root on -/
theorem sameEnd_of_finds (hroot : (t.node? t.root).isSome) (hroots : u.root = t.root)
    (hsame : ∀ way v, way <+: path.names → (t.Finds t.root way v ↔ u.Finds u.root way v))
    (hacts : ∀ v, u.actAt v = t.actAt v) (hkept : ∀ v, (t.node? v).isSome → (u.node? v).isSome)
    (hvalid : ∀ n ∈ path.names, nameFault? n = none) (ext : External) :
    SameEnd (t.resolve ext path) (u.resolve ext path) := by
  have hstart : u.Finds u.root [] t.root := by
    rw [hroots]
    exact .here
  rw [hroots] at hsame
  exact Finds.here.sameEnd hstart hroot hsame hacts hkept hvalid rfl rfl ext

/-- names equal apart from case find alike -/
theorem Finds.congr {id last : NodeId} {names others : List String} (hf : foldNames names = foldNames others)
    (h : t.Finds id names last) : t.Finds id others last := by
  induction h generalizing others with
  | here =>
    rw [List.map_eq_nil_iff.1 hf.symm]
    exact .here
  | @down id c last d name rest node child on ih =>
    obtain ⟨other, more, rfl, hname, hrest⟩ := List.map_eq_cons_iff.1 hf.symm
    exact .down node (by rw [findChild_congr hname, child]) (ih hrest.symm)

end Walk

/-! ## A directory more -/

section Grown

variable {t u : Tree} {p : NodeId} {name : String}

theorem Grown.kept (hu : t.Grown p name u) {v : NodeId} (hv : (t.node? v).isSome) : (u.node? v).isSome := by
  rw [node?_isSome, ← face?_isSome] at hv ⊢
  rw [hu.face]
  split
  · rfl
  · exact hv

variable (hu : t.Grown p name u) (h : t.Linked) (ha : t.Apart) (hl : u.Linked) {front : List String} {d : Directory}
  (hp : t.Finds t.root front p) (hd : t.node? p = some (.directory d))
include hu h ha hl hp hd

/-- a directory more is passed on the ways through it alone -/
theorem Grown.finds_iff {names : List String} {v : NodeId}
    (hn : ¬ foldNames (front ++ [name]) <+: foldNames names) : t.Finds t.root names v ↔ u.Finds u.root names v := by
  refine ⟨fun hv => hu.root ▸ hv.grown hu h, fun hv => ?_⟩
  rw [← hu.root]
  refine hv.kept (· ≠ t.nextId) ((hu.finds h hp hd).1.elsewhere hl hn) ?_ ?_
  · exact fun k d hk hd => directory_of_face (by rw [hu.face, if_neg hk]) hd
  · intro k c other hk hc hchild
    have hmem := (findChild_eq_some hchild).1
    refine ha.findChild_of hchild ?_ (by rw [hu.name?, if_neg hc])
    rw [hu.children] at hmem
    split at hmem
    · next hkp =>
      rw [hkp]
      exact (List.mem_append.1 hmem).resolve_right fun hnew => hc (List.mem_singleton.1 hnew)
    · exact hmem

/-- **A directory more ends no path differently but the one to it.** What was missing there before is missing in it
now. -/
theorem Grown.sameEnd {path : AbsolutePath} (hvalid : ∀ n ∈ path.names, nameFault? n = none)
    (hne : foldNames path.names ≠ foldNames (front ++ [name])) (ext : External) :
    SameEnd (t.resolve ext path) (u.resolve ext path) := by
  by_cases hpre : foldNames (front ++ [name]) <+: foldNames path.names
  · obtain ⟨after, hafter⟩ := hpre
    obtain ⟨way, rest, hnames, hway, hrest⟩ := List.map_eq_append_iff.1 hafter.symm
    obtain ⟨above, last, rfl, habove, hlast⟩ : ∃ above last, way = above ++ [last] ∧
        foldNames above = foldNames front ∧ Text.fold last = Text.fold name := by
      rw [foldNames_append, foldNames_singleton] at hway
      obtain ⟨above, ends, hcut, habove, hends⟩ := List.map_eq_append_iff.1 hway
      obtain ⟨last, rfl, hlast⟩ := List.map_eq_singleton_iff.1 hends
      exact ⟨above, last, hcut, habove, hlast⟩
    cases rest with
    | nil =>
      rw [List.append_nil] at hnames
      exact absurd (hnames ▸ hway) hne
    | cons next more =>
      obtain ⟨hnew, d', hd'⟩ := hu.finds h hp hd
      have free : t.findChild p last = none := by rw [findChild_congr hlast, hu.free]
      have bare : u.findChild t.nextId next = none := by rw [findChild, hu.bare h]; rfl
      have hcut : path.names = above ++ last :: next :: more := by rw [hnames, List.append_assoc]; rfl
      rw [(hp.congr habove.symm).resolve_absent hd free hcut, (hnew.congr hway.symm).resolve_absent hd' bare hnames]
      exact .error rfl
  · refine sameEnd_of_finds ((t.node?_isSome _).trans h.rootPresent) hu.root (fun way v hpre' => ?_) hu.actAt
      (fun _ => hu.kept) hvalid ext
    exact hu.finds_iff h ha hl hp hd fun hp' => hpre (hp'.trans (hpre'.map Text.fold))

end Grown

/-! ## A directory under another name -/

/-- a name further is not on the way -/
theorem not_prefix_above {front beside : List String} (name : String) (hfold : foldNames beside = foldNames front) :
    ¬ foldNames (front ++ [name]) <+: foldNames beside := by
  intro hpre
  have hle := hpre.length_le
  rw [hfold, length_foldNames, length_foldNames, List.length_append, List.length_singleton] at hle
  omega

/-- a vertex that is found at the source, and after a change of its name at the target -/
structure Renaming (t : Tree) (id : NodeId) (own : String) (source : List String) (u : Tree) (other : String)
    (target : List String) : Prop where
  linked : t.Linked
  apart : t.Apart
  linkedAfter : u.Linked
  apartAfter : u.Apart
  edit : t.Renamed id other u
  back : u.Renamed id own t
  there : t.Finds t.root source id
  moved : u.Finds u.root target id
  level : source.length = target.length

namespace Renaming

variable {t u : Tree} {id : NodeId} {own other : String} {source target : List String}
  (r : t.Renaming id own source u other target)
include r

/-- the name changed back -/
theorem flip : u.Renaming id other target t own source where
  linked := r.linkedAfter
  apart := r.apartAfter
  linkedAfter := r.linked
  apartAfter := r.apart
  edit := r.back
  back := r.edit
  there := r.moved
  moved := r.there
  level := r.level.symm

theorem present : (t.get? id).isSome :=
  r.linked.present (r.there.attached r.linked ((t.isAttached_iff _).2 (.inl rfl)))

theorem kept {v : NodeId} (hv : (t.node? v).isSome) : (u.node? v).isSome := by
  rw [node?_isSome, ← face?_isSome] at hv ⊢
  rw [r.edit.face]
  split
  · rw [Option.isSome_map]
    exact hv
  · exact hv

/-- ways that do not pass the vertex are still there -/
theorem aside {names : List String} {v : NodeId} (hn : ¬ foldNames source <+: foldNames names)
    (hv : t.Finds t.root names v) : u.Finds u.root names v := by
  rw [r.edit.root]
  exact hv.renamed (r.there.elsewhere r.linked hn) r.apartAfter r.edit r.present

/-- a way from the vertex on does not come back to it, and is still there -/
theorem onward {way : List String} {v : NodeId} (hv : t.Finds id way v) : u.Finds id way v := by
  cases hv with
  | here => exact .here
  | @down _ c _ d name rest node child on =>
    have past : ∀ before k, t.Finds c before k → k ≠ id := by
      rintro before k hk rfl
      have hround := finds_append.2 ⟨_, r.there, .down node child hk⟩
      have hlength := congrArg List.length (finds_unique r.linked r.there hround)
      rw [length_foldNames, length_foldNames, List.length_append, List.length_cons] at hlength
      omega
    have hc : c ≠ id := past [] c .here
    obtain ⟨d', hn'⟩ := directory_of_acts r.edit.actAt (r.kept (Option.isSome_of_eq_some node)) node
    refine .down hn' ?_ (on.renamed (fun before k _ hk => past before k hk) r.apartAfter r.edit r.present)
    refine r.apartAfter.findChild_of child ?_ (by rw [r.edit.name? r.present, if_neg hc])
    rw [r.edit.children]
    exact (findChild_eq_some child).1

section Paths

variable {path path' : AbsolutePath} (hvalid : ∀ n ∈ path.names, nameFault? n = none) (ext : External)
include hvalid

/-- **What was at the source is at the target**, with all that is below it. -/
theorem sameEnd_moved {rest : List String} (hnames : path.names = source ++ rest)
    (hnames' : path'.names = target ++ rest) : SameEnd (t.resolve ext path) (u.resolve ext path') := by
  refine r.there.sameEnd r.moved ((t.node?_isSome id).trans r.present)
    (fun way v _ => ⟨r.onward, r.flip.onward⟩) r.edit.actAt (fun _ => r.kept) (fun n hn => ?_) hnames hnames' ext
  exact hvalid n (hnames ▸ List.mem_append_right _ hn)

/-- **Paths that begin with neither end where they did.** -/
theorem sameEnd_beside (hs : ¬ foldNames source <+: foldNames path.names)
    (ht : ¬ foldNames target <+: foldNames path.names) : SameEnd (t.resolve ext path) (u.resolve ext path) := by
  refine sameEnd_of_finds ((t.node?_isSome _).trans r.linked.rootPresent) r.edit.root (fun way v hway => ?_)
    r.edit.actAt (fun _ => r.kept) hvalid ext
  have hfold := hway.map Text.fold
  exact ⟨r.aside fun hp => hs (hp.trans hfold), r.flip.aside fun hp => ht (hp.trans hfold)⟩

omit hvalid in
/-- **At the source nothing is found any more**, unless the name differs in case only. -/
theorem vacated (hne : foldNames source ≠ foldNames target) (hsource : source ≠ []) {rest : List String}
    (hnames : path.names = source ++ rest) : u.resolve ext path = .error (MountSpace.missing source) := by
  obtain ⟨front, name, rfl⟩ : ∃ front name, source = front ++ [name] :=
    ⟨_, _, (List.dropLast_concat_getLast hsource).symm⟩
  obtain ⟨p, hp, hlast⟩ := finds_append.1 r.there
  cases hlast with
  | @down _ c _ d _ _ node child on =>
    cases on
    have habove : ¬ foldNames (front ++ [name]) <+: foldNames front := not_prefix_above name rfl
    have hp' : u.Finds u.root front p := r.aside habove hp
    have hpid : p ≠ id := r.there.ne r.linked habove hp
    obtain ⟨d', hd'⟩ := directory_of_face (by rw [r.edit.face, if_neg hpid]) node
    -- what is found at the source now was there before, so it is the vertex, which is at the target now
    have free : u.findChild p name = none := by
      cases hc : u.findChild p name with
      | none => rfl
      | some c =>
        have hfound : u.Finds u.root (front ++ [name]) c := hp'.snoc hd' hc
        have haway : ¬ foldNames target <+: foldNames (front ++ [name]) := by
          intro hpre
          have hlength : (foldNames target).length = (foldNames (front ++ [name])).length := by
            rw [length_foldNames, length_foldNames, r.level]
          exact hne (hpre.eq_of_length hlength).symm
        cases (r.flip.aside haway hfound).same r.there rfl
        exact absurd (finds_unique r.linkedAfter hfound r.moved) hne
    rw [hp'.resolve_absent hd' free (by rw [hnames, List.append_assoc]; rfl)]

end Paths

end Renaming

/-- a directory given another name in the directory it is in -/
theorem renaming_of_rename {t u : Tree} (h : t.Linked) (ha : t.Apart) (hl : u.Linked) (hau : u.Apart) {id : NodeId}
    {now : Time} {front beside : List String} {name new : String} (hu : t.rename id new now = some u)
    (there : t.Finds t.root (front ++ [name]) id) (hfold : foldNames beside = foldNames front) :
    ∃ own, t.Renaming id own (front ++ [name]) u new (beside ++ [new]) := by
  have edit := renamed_rename hu
  obtain ⟨hid, hupdate⟩ := rename_eq_some hu
  obtain ⟨node, hnode⟩ := Option.isSome_iff_exists.1 ((t.node?_isSome id).trans hid)
  have back : u.Renamed id node.name t := by
    refine ⟨edit.root.symm, fun k => ?_, fun k => (edit.children k).symm, fun k => (edit.attached k).symm, ?_⟩
    · rw [edit.face]
      split
      · next hk =>
        rw [hk, face?, hnode]
        cases node <;> rfl
      · rfl
    · rw [hupdate, nextId_update]
  obtain ⟨p, hp, hlast⟩ := finds_append.1 there
  cases hlast with
  | @down _ c _ d _ _ node' child on =>
    cases on
    have habove := not_prefix_above name hfold
    have hpid : p ≠ id := there.ne h habove (hp.congr hfold.symm)
    have hp' : u.Finds t.root beside p := (hp.congr hfold.symm).renamed (there.elsewhere h habove) hau edit hid
    obtain ⟨d', hd'⟩ := directory_of_face (by rw [edit.face, if_neg hpid]) node'
    have hnew : u.findChild p new = some id := by
      refine hau.findChild ?_ (by rw [key?, edit.name? hid, if_pos rfl]; rfl)
      rw [edit.children]
      exact (findChild_eq_some child).1
    refine ⟨node.name, h, ha, hl, hau, edit, back, there, ?_, ?_⟩
    · rw [edit.root]
      exact hp'.snoc hd' hnew
    · rw [List.length_append, List.length_append, ← length_foldNames front, ← hfold, length_foldNames]
      rfl

end Tree

end MountSpace

/-
Listing and look-up in a world of namespaces and stores. A path of a namespace lies in a directory of its tree, in a
volume, or in a namespace that is mounted there, where it lies in one of these again (`Lies`). If all volumes that can be
reached so are stores in memory, every listing agrees with the look-ups of the names in it (`listing_exact`), by the rule
of names of the place where the path lies in the end: the case rule changes with it, at whatever depth.

The proof is on the number of crossings: a listing and a look-up one name further on cross into the same namespaces, so
it does not matter whether namespaces mount one another.
-/
import Mathlib
import MountSpace.Proofs.Memory.Listing
import MountSpace.Proofs.World.Books
import MountSpace.Proofs.World.Nested

namespace MountSpace.World

/-- where a place in a mounted filesystem lies: in a volume, or where a namespace further on says -/
def seatBehind (w : World) (further : Namespace → AbsolutePath → Option Seat) (at_ : ExternalPath) : Option Seat :=
  match at_.fs with
  | .volume k => some (.stored k at_.path)
  | .space j =>
    match w.namespace? j with
    | none => none
    | some inner =>
      match inner.ofFsPath at_.path with
      | .error _ => none
      | .ok seen => further inner seen

/-- where a path of a namespace lies in the end, followed from namespace to namespace so many times at most -/
def seat? (w : World) : Nat → Namespace → AbsolutePath → Option Seat
  | n, ns, path =>
    match ns.place (w.answers n) path with
    | .error _ => none
    | .ok place =>
      match place.external?, n with
      | none, _ => place.nodeId?.map (.vertex ns.id)
      | some at_, 0 => w.seatBehind (fun _ _ => none) at_
      | some at_, n + 1 => w.seatBehind (seat? w n) at_

/-- every volume that a namespace mounts, itself or through the namespaces it mounts, is a store in memory that calls
have filled and whose names are texts -/
def InMemory (w : World) (i : NamespaceId) : Prop :=
  ∀ j, Relation.ReflTransGen w.Mounts i j → ∀ ns v m k, w.namespace? j = some ns →
    ns.tree.node? v = some (.mount m) → m.record.source.fs = .volume k →
      ∃ now calls, w.volumes[k]? = some (.memory (.filled now calls)) ∧
        ∀ directory, Flat.Worded (MemoryStore.filled now calls).entries directory

/-- a place in a volume in memory lists what is found in it -/
theorem lists_volume {w : World} {n k : Nat} {now : Time} {calls : List MemoryStore.Call} {path : FsPath}
    {entries : List Entry} (hvolume : w.volumes[k]? = some (.memory (.filled now calls)))
    (hw : ∀ directory, Flat.Worded (MemoryStore.filled now calls).entries directory)
    (hl : (w.answers n (.volume k)).readdir path = .ok entries) :
    Lists (.stored k path) entries fun name => (w.answers n (.volume k)).getattr (path.joinName name) := by
  have hanswers : w.answers n (.volume k) = (MemoryStore.filled now calls).filesystem := by
    rw [answers_volume, volumeAnswers, hvolume]
    rfl
  rw [hanswers] at hl ⊢
  exact MemoryStore.lists_readdir (MemoryStore.filled_tidy now calls) hl (hw _) k

section Listing

variable {w : World} {i j : NamespaceId} {ns : Namespace} {path : AbsolutePath} {entries : List Entry}
  (hmem : w.InMemory i) (hshape : ∀ j ns, w.namespace? j = some ns → ns.tree.Linked ∧ ns.tree.Apart)
include hmem hshape

/-- a listing comes from the tree or from a store, and agrees with what is found, or from a namespace further on -/
theorem lists_or_crosses {n : Nat} (hreach : Relation.ReflTransGen w.Mounts i j) (hns : w.namespace? j = some ns)
    (hl : ns.listDirectory (w.answers n) path = .ok entries) :
    (∃ seat, w.seat? n ns path = some seat ∧
      Lists seat entries fun name => ns.readAttributes (w.answers n) (path.below name)) ∨
    ∃ place inside b, ns.place (w.answers n) path = .ok place ∧ place.external? = some ⟨.space b, inside⟩ ∧
      w.Mounts j b ∧ (w.answers n (.space b)).readdir inside = .ok entries := by
  cases hp : ns.place (w.answers n) path with
  | error e =>
    rw [(Namespace.refuses_of_place hp).list] at hl
    cases hl
  | ok place =>
    cases hat : place.external? with
    | none =>
      obtain ⟨v, d, rfl⟩ : ∃ v d, place = .directory v d := by
        cases place with
        | directory v d => exact ⟨v, d, rfl⟩
        | mount v m => cases hat
        | real name at_ => cases hat
      refine .inl ⟨.vertex ns.id v, ?_, Namespace.lists_directory (hshape j ns hns).1 (hshape j ns hns).2 hp hl⟩
      cases n <;> simp only [seat?, hp] <;> rfl
    | some at_ =>
      rw [Namespace.listDirectory_external hp hat] at hl
      obtain ⟨v, m, hm, hfs⟩ := Namespace.place_mounted hp hat
      obtain ⟨fs, inside⟩ := at_
      cases fs with
      | volume k =>
        obtain ⟨now, calls, hvolume, hw⟩ := hmem j hreach ns v m k hns hm hfs.symm
        refine .inl ⟨.stored k inside, ?_, Namespace.lists_external hp hat (lists_volume hvolume hw hl)⟩
        cases n <;> simp only [seat?, hp, hat] <;> rfl
      | space b => exact .inr ⟨place, inside, b, rfl, hat, ⟨ns, v, m, hns, hm, hfs.symm⟩, hl⟩

/-- at each depth of crossings, what a namespace lists agrees with what it finds -/
theorem lists_answers (n : Nat) (hreach : Relation.ReflTransGen w.Mounts i j) (hns : w.namespace? j = some ns)
    (hl : ns.listDirectory (w.answers n) path = .ok entries) : ∃ seat, w.seat? n ns path = some seat ∧
      Lists seat entries fun name => ns.readAttributes (w.answers n) (path.below name) := by
  induction n generalizing j ns path with
  | zero =>
    rcases lists_or_crosses hmem hshape hreach hns hl with hhere | ⟨place, inside, b, -, -, -, hlist⟩
    · exact hhere
    · cases hlist
  | succ n ih =>
    rcases lists_or_crosses hmem hshape hreach hns hl with hhere | ⟨place, inside, b, hp, hat, hmounts, hlist⟩
    · exact hhere
    · cases hinner : w.namespace? b with
      | none =>
        simp only [answers, hinner, failing] at hlist
        cases hlist
      | some inner =>
        have hanswers := answers_space hinner n
        cases hgiven : inner.ofFsPath inside with
        | error e =>
          simp only [hanswers, Namespace.filesystem, hgiven] at hlist
          cases hlist
        | ok seen =>
          simp only [hanswers, Namespace.filesystem, hgiven] at hlist
          obtain ⟨seat, hseat, hlists⟩ := ih (hreach.tail hmounts) hinner hlist
          refine ⟨seat, by simp only [seat?, hp, hat, seatBehind, hinner, hgiven, hseat], ?_⟩
          refine Namespace.lists_external hp hat (hlists.congr fun name a hname => ?_)
          simp only [hanswers, Namespace.filesystem, Namespace.ofFsPath_below hgiven hname]

end Listing

/-- **Listing and look-up agree.** In every run of the world, if all volumes that a namespace mounts, itself or through
other namespaces, are stores in memory with texts for names, a listing is in the order of the place where its path lies
in the end; what it names is found one name further on, of the kind it tells; and what is found there is named once. -/
theorem listing_exact (clock : Time) (moves : List Move) {id : NamespaceId} {ns : Namespace}
    (hns : ((World.new clock).run moves).namespace? id = some ns) (hmem : ((World.new clock).run moves).InMemory id)
    {path : AbsolutePath} {entries : List Entry}
    (hl : ns.listDirectory ((World.new clock).run moves).external path = .ok entries) :
    let w := (World.new clock).run moves
    ∃ seat, w.seat? w.crossingLimit ns path = some seat ∧
      entries.Pairwise (fun a b => seat.before a.name b.name) ∧
      ∀ name longer, path.join name = .ok longer →
        (∀ e ∈ entries, e.name = name → ∃ place a, ns.place w.external longer = .ok place ∧
          ns.readAttributes w.external longer = .ok a ∧ a.kind = e.kind) ∧
        (∀ place, ns.place w.external longer = .ok place →
          ∃ e, entries.filter (fun e => seat.same e.name name) = [e]) := by
  have hshape : ∀ j ns, ((World.new clock).run moves).namespace? j = some ns → ns.tree.Linked ∧ ns.tree.Apart := by
    intro j other hother
    refine ⟨((run_sound clock moves).stacked j other hother).toLinked, ?_⟩
    obtain ⟨settings, now, events, rfl⟩ := namespace_run hother
    exact (Namespace.run_apart j settings now events).1
  obtain ⟨seat, hseat, hlists⟩ := lists_answers hmem hshape _ .refl hns hl
  refine ⟨seat, hseat, hlists.ordered, fun name longer hjoin => ?_⟩
  obtain ⟨hname, rfl⟩ := AbsolutePath.join_eq_ok.1 hjoin
  constructor
  · rintro e he rfl
    obtain ⟨a, ha, hkind⟩ := hlists.listed e he hname
    obtain ⟨place, hp⟩ := Namespace.place_iff_attributes.2 ⟨a, ha⟩
    exact ⟨place, a, hp, ha, hkind⟩
  · intro place hp
    obtain ⟨a, ha⟩ := Namespace.place_iff_attributes.1 ⟨place, hp⟩
    obtain ⟨e, he, -⟩ := hlists.found name a hname ha
    exact ⟨e, he⟩

/-- a namespace with the store mounted in it, and another with the first mounted in it -/
def stacked : List Move :=
  [.createNamespace {}, .createNamespace {}, .outside (.empty 0) #[.memory .oneFile] 0,
    .operate 1 (.createDirectory ⟨⟨1, ["m"]⟩, rfl⟩), .operate 1 (.mount ⟨.volume 0, .rootPath⟩ ⟨⟨1, ["m"]⟩, rfl⟩),
    .operate 2 (.createDirectory ⟨⟨2, ["b"]⟩, rfl⟩), .operate 2 (.mount ⟨.space 1, .rootPath⟩ ⟨⟨2, ["b"]⟩, rfl⟩)]

/-- the store is the only volume in reach -/
theorem stacked_inMemory : ((World.new 0).run stacked).InMemory 2 := by
  intro j _ other v m k hother hm hfs
  match j with
  | 0 => cases hother
  | 1 =>
    cases hother
    match v with
    | 0 => cases hm
    | 1 => cases hm
    | 2 =>
      cases hm
      cases hfs
      exact ⟨0, _, rfl, MemoryStore.oneFile_worded⟩
    | v + 3 => cases hm
  | 2 =>
    cases hother
    match v with
    | 0 => cases hm
    | 1 => cases hm
    | 2 =>
      cases hm
      cases hfs
    | v + 3 => cases hm
  | j + 3 => cases hother

/-- behind both mounts the file is listed, by its exact name, and found -/
theorem stacked_listing : ∃ ns, ((World.new 0).run stacked).namespace? 2 = some ns ∧
    ns.listDirectory ((World.new 0).run stacked).external ⟨2, ["b", "m"]⟩ = .ok [⟨"f", .file⟩] ∧
    ∃ place a, ns.place ((World.new 0).run stacked).external ⟨2, ["b", "m", "f"]⟩ = .ok place ∧
      ns.readAttributes ((World.new 0).run stacked).external ⟨2, ["b", "m", "f"]⟩ = .ok a ∧ a.kind = .file := by
  have hshown : (((World.new 0).run stacked).namespace? 2).map
      (·.listDirectory ((World.new 0).run stacked).external ⟨2, ["b", "m"]⟩) = some (.ok [⟨"f", .file⟩]) := by cbv
  obtain ⟨ns, hns, hlist⟩ := Option.map_eq_some_iff.1 hshown
  obtain ⟨seat, -, -, hnames⟩ := listing_exact 0 stacked hns stacked_inMemory hlist
  obtain ⟨hlisted, -⟩ := hnames "f" ⟨2, ["b", "m", "f"]⟩ rfl
  exact ⟨ns, hns, hlist, hlisted ⟨"f", .file⟩ (List.mem_singleton_self _) rfl⟩

end MountSpace.World

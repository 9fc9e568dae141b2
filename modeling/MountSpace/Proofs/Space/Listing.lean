/-
Listing and look-up. A directory of a tree is listed by the names of its children in the order of their folded forms, and
a name is looked up among them by its folded form; what lies in a mounted filesystem is listed and looked up there. Either
way a listing agrees with look-ups by name (`Lists`): what is listed is found, with the kind that is listed, and what is
found is listed once. What differs is the rule of names (`Seat`).

- `Tree.lists_listTree`: a directory of a tree;
- `Namespace.readAttributes_below`: a name more behind a mount is a question to the mounted filesystem.
-/
import MountSpace.Proofs.Path.Given
import MountSpace.Proofs.Space.Names
import MountSpace.Proofs.Space.Readings

namespace MountSpace

/-- where a listing comes from: a directory of a namespace's tree, or a directory of a volume -/
inductive Seat where
  | vertex (space : NamespaceId) (id : NodeId)
  | stored (volume : Nat) (path : FsPath)

namespace Seat

/-- the names that are one name there: apart from case in a tree, and no others in a volume -/
def same : Seat → String → String → Bool
  | vertex _ _, a, b => Text.sameName a b
  | stored _ _, a, b => a == b

/-- one name is listed before another there -/
def before : Seat → String → String → Prop
  | vertex _ _, a, b => Text.compareNames a b = .lt
  | stored _ _, a, b => a < b

end Seat

/-- a listing agrees with a way to look up names -/
structure Lists (seat : Seat) (entries : List Entry) (lookup : String → Except FsError Attributes) : Prop where
  ordered : entries.Pairwise fun a b => seat.before a.name b.name
  /-- what is listed is found, with its kind -/
  listed : ∀ e ∈ entries, nameFault? e.name = none → ∃ a, lookup e.name = .ok a ∧ a.kind = e.kind
  /-- what is found is listed once, with its kind -/
  found : ∀ name a, nameFault? name = none → lookup name = .ok a →
    ∃ e, entries.filter (fun e => seat.same e.name name) = [e] ∧ e.kind = a.kind

/-- look-ups that find the same agree with the same listings -/
theorem Lists.congr {seat : Seat} {entries : List Entry} {lookup lookup' : String → Except FsError Attributes}
    (h : Lists seat entries lookup)
    (hsame : ∀ name a, nameFault? name = none → (lookup' name = .ok a ↔ lookup name = .ok a)) :
    Lists seat entries lookup' where
  ordered := h.ordered
  listed := by
    intro e he hname
    obtain ⟨a, ha, hkind⟩ := h.listed e he hname
    exact ⟨a, (hsame e.name a hname).2 ha, hkind⟩
  found := fun name a hname ha => h.found name a hname ((hsame name a hname).1 ha)

/-- the path one name further on -/
def AbsolutePath.below (path : AbsolutePath) (name : String) : AbsolutePath := ⟨path.owner, path.names ++ [name]⟩

theorem AbsolutePath.join_eq_ok {path longer : AbsolutePath} {name : String} :
    path.join name = .ok longer ↔ nameFault? name = none ∧ longer = path.below name := by
  rw [join, checkName]
  cases nameFault? name with
  | none => simp [below, eq_comm]
  | some fault => simp

/-- where no two can pass, the one that does is all that is left -/
theorem filter_eq_singleton {α : Type} {l : List α} {p : α → Bool}
    (hl : l.Pairwise fun a b => ¬ (p a = true ∧ p b = true)) {a : α} (ha : a ∈ l) (hp : p a = true) :
    l.filter p = [a] := by
  induction l with
  | nil => cases ha
  | cons b rest ih =>
    obtain ⟨hfirst, hrest⟩ := List.pairwise_cons.1 hl
    rcases List.mem_cons.1 ha with rfl | ha
    · have hnone : rest.filter p = [] := List.filter_eq_nil_iff.2 fun c hc hpc => hfirst c hc ⟨hp, hpc⟩
      rw [List.filter_cons_of_pos hp, hnone]
    · rw [List.filter_cons_of_neg fun hpb => hfirst a ha ⟨hpb, hp⟩]
      exact ih hrest ha

namespace Text

theorem sameName_iff {a b : String} : sameName a b = true ↔ fold a = fold b := beq_iff_eq

theorem compareNames_ne_gt {a b : String} : (compareNames a b != .gt) = (compareNames a b).isLE := by
  cases compareNames a b <;> rfl

theorem compareNames_trans {a b c : String} (hab : (compareNames a b != .gt) = true)
    (hbc : (compareNames b c != .gt) = true) : (compareNames a c != .gt) = true := by
  rw [compareNames_ne_gt, compareNames] at hab hbc ⊢
  exact Std.TransCmp.isLE_trans hab hbc

theorem compareNames_total (a b : String) : ((compareNames a b != .gt) || (compareNames b a != .gt)) = true := by
  have hswap : compare (fold b) (fold a) = (compare (fold a) (fold b)).swap := Std.OrientedCmp.eq_swap
  rw [compareNames, compareNames, hswap]
  cases compare (fold a) (fold b) <;> rfl

theorem compareNames_lt {a b : String} (hle : (compareNames a b != .gt) = true) (hne : fold a ≠ fold b) :
    compareNames a b = .lt := by
  rw [compareNames] at hle ⊢
  cases hc : compare (fold a) (fold b) with
  | lt => rfl
  | eq => exact absurd (Std.LawfulEqCmp.eq_of_compare hc) hne
  | gt =>
    rw [hc] at hle
    cases hle

end Text

namespace Tree

/-! ## A directory of a tree -/

section Listing

variable {t : Tree} {v : NodeId}

theorem mem_edges {e : Edge} :
    e ∈ t.edges v ↔ ∃ c node, c ∈ t.childrenOf v ∧ t.node? c = some node ∧ e = ⟨v, c, node.name⟩ := by
  simp only [edges, List.mem_filterMap, Option.map_eq_some_iff]
  constructor
  · rintro ⟨c, hc, node, hn, rfl⟩
    exact ⟨c, node, hc, hn, rfl⟩
  · rintro ⟨c, node, hc, hn, rfl⟩
    exact ⟨c, hc, node, hn, rfl⟩

theorem child?_eq_some {name : String} {c : NodeId} {node : Node} :
    t.child? v name = some (c, node) ↔ t.findChild v name = some c ∧ t.node? c = some node := by
  simp [child?, Option.bind_eq_some_iff, Option.map_eq_some_iff]

variable (h : t.Linked) (ha : t.Apart)
include h ha

theorem edges_apart : (t.edges v).Pairwise fun a b => Text.fold a.name ≠ Text.fold b.name := by
  rw [edges, List.pairwise_filterMap]
  refine (h.once v).imp_of_mem fun {a b} hma hmb hne ea hea eb heb hfold => hne ?_
  obtain ⟨na, hna, rfl⟩ := Option.map_eq_some_iff.1 hea
  obtain ⟨nb, hnb, rfl⟩ := Option.map_eq_some_iff.1 heb
  refine ha v a b hma hmb ?_
  rw [key?, key?, name?, name?, hna, hnb]
  exact congrArg some hfold

/-- a directory of a tree is listed in order, each name once -/
theorem listTree_ordered :
    (Namespace.listTree t v).Pairwise fun a b => Text.compareNames a.name b.name = .lt := by
  have happart : ((t.edges v).map fun e => Entry.directory e.name).Pairwise
      fun a b => Text.fold a.name ≠ Text.fold b.name := List.pairwise_map.2 (edges_apart h ha)
  have hsorted : (Namespace.listTree t v).Pairwise fun a b => (Text.compareNames a.name b.name != .gt) = true := by
    refine List.pairwise_mergeSort ?_ ?_ _
    · exact fun a b c => Text.compareNames_trans
    · exact fun a b => Text.compareNames_total a.name b.name
  have hdistinct := (List.mergeSort_perm ((t.edges v).map fun e => Entry.directory e.name)
    fun a b => Text.compareNames a.name b.name != .gt).symm.pairwise happart (fun h => Ne.symm h)
  exact hsorted.imp₂ (fun _ _ hle hne => Text.compareNames_lt hle hne) hdistinct

/-- a listing of a directory agrees with look-ups among its children -/
theorem lists_listTree (space : NamespaceId) {lookup : String → Except FsError Attributes}
    (hlookup : ∀ name a, nameFault? name = none → (lookup name = .ok a ↔
      ∃ c node, t.child? v name = some (c, node) ∧ a = Namespace.timesAttributes node.times)) :
    Lists (.vertex space v) (Namespace.listTree t v) lookup := by
  have hmem : ∀ {e}, e ∈ Namespace.listTree t v ↔
      ∃ c node, c ∈ t.childrenOf v ∧ t.node? c = some node ∧ e = Entry.directory node.name := by
    intro e
    rw [Namespace.listTree, List.mem_mergeSort, List.mem_map]
    constructor
    · rintro ⟨edge, hedge, rfl⟩
      obtain ⟨c, node, hc, hn, rfl⟩ := mem_edges.1 hedge
      exact ⟨c, node, hc, hn, rfl⟩
    · rintro ⟨c, node, hc, hn, rfl⟩
      exact ⟨_, mem_edges.2 ⟨c, node, hc, hn, rfl⟩, rfl⟩
  have hkey : ∀ {c node}, t.node? c = some node → t.key? c = some (Text.fold node.name) := by
    intro c node hn
    rw [key?, name?, hn]
    rfl
  refine ⟨listTree_ordered h ha, ?_, ?_⟩
  · intro e he hname
    obtain ⟨c, node, hc, hn, rfl⟩ := hmem.1 he
    exact ⟨_, (hlookup _ _ hname).2 ⟨c, node, child?_eq_some.2 ⟨ha.findChild hc (hkey hn), hn⟩, rfl⟩, rfl⟩
  · intro name a hname hfound
    obtain ⟨c, node, hchild, rfl⟩ := (hlookup name a hname).1 hfound
    obtain ⟨hfind, hn⟩ := child?_eq_some.1 hchild
    obtain ⟨hc, own, hown, hfold⟩ := findChild_eq_some hfind
    have hnamed : Text.fold node.name = Text.fold name := by
      rw [name?, hn] at hown
      cases hown
      exact hfold
    refine ⟨Entry.directory node.name, filter_eq_singleton ?_ (hmem.2 ⟨c, node, hc, hn, rfl⟩) ?_, rfl⟩
    · refine (listTree_ordered h ha).imp fun {a b} hlt hboth => ?_
      have heq : Text.fold a.name = Text.fold b.name :=
        (Text.sameName_iff.1 hboth.1).trans (Text.sameName_iff.1 hboth.2).symm
      have hself : compare (Text.fold b.name) (Text.fold b.name) = .eq := Std.ReflCmp.compare_self
      rw [Text.compareNames, heq, hself] at hlt
      cases hlt
    · exact Text.sameName_iff.2 hnamed

end Listing

/-! ## One name further -/

/-- one name more is one step more -/
theorem resolve_below {t : Tree} {ext : External} {path : AbsolutePath} {place : Place}
    (hr : t.resolve ext path = .ok place) (name : String) :
    t.resolve ext (path.below name) = t.step ext (path.below name) path.names name place := by
  rw [resolve] at hr ⊢
  cases hroot : t.node? t.root with
  | none =>
    rw [hroot] at hr
    cases hr
  | some root =>
    simp only [hroot] at hr ⊢
    have hnames : (path.below name).names = path.names ++ [name] := rfl
    rw [hnames, walk_append, walk_ok_path hr (path.below name) []]
    simp only [walk, List.nil_append]
    cases t.step ext (path.below name) path.names name place <;> rfl

end Tree

namespace Namespace

section Below

variable {ns : Namespace} {ext : External} {path : AbsolutePath} {name : String} {place : Place} {a : Attributes}

/-- a path leads somewhere exactly if what is there has attributes -/
theorem place_iff_attributes : (∃ place, ns.place ext path = .ok place) ↔ ∃ a, ns.readAttributes ext path = .ok a := by
  constructor
  · rintro ⟨place, hp⟩
    cases ha : ns.readAttributes ext path with
    | ok a => exact ⟨a, rfl⟩
    | error e =>
      rw [place_of_no_attributes ha] at hp
      cases hp
  · rintro ⟨a, ha⟩
    cases hp : ns.place ext path with
    | ok place => exact ⟨place, rfl⟩
    | error e =>
      rw [(refuses_of_place hp).attributes] at ha
      cases ha

theorem place_step (hp : ns.place ext path = .ok place) (name : String) :
    ns.place ext (path.below name) = ns.tree.step ext (path.below name) path.names name place := by
  obtain ⟨hcheck, hr⟩ := place_eq_ok.1 hp
  have hsame : ns.check (path.below name) = .ok () := by
    rw [check_eq_ok] at hcheck ⊢
    exact hcheck
  rw [Namespace.place, hsame]
  exact Tree.resolve_below hr name

/-- a name more behind a directory is one of its children -/
theorem readAttributes_child {v : NodeId} {d : Directory} (hp : ns.place ext path = .ok (.directory v d)) :
    ns.readAttributes ext (path.below name) = .ok a ↔
      ∃ c node, ns.tree.child? v name = some (c, node) ∧ a = timesAttributes node.times := by
  rw [readAttributes, place_step hp, Tree.step]
  cases hc : ns.tree.child? v name with
  | none => simp
  | some found =>
    obtain ⟨c, node⟩ := found
    cases node <;> simp [Place.ofNode, Node.times, eq_comm]

/-- a name more behind a place outside is asked of its filesystem -/
theorem readAttributes_below {at_ : ExternalPath} (hp : ns.place ext path = .ok place)
    (hat : place.external? = some at_) (hname : nameFault? name = none) :
    ns.readAttributes ext (path.below name) = .ok a ↔ (ext at_.fs).getattr (at_.path.joinName name) = .ok a := by
  have hstep := Tree.step_eq_told ns.tree (path.below name) path.names (Place.asks_of_external hat hname) ext
  rw [readAttributes, place_step hp, hstep, ask]
  cases hasked : (ext at_.fs).getattr (at_.path.joinName name) with
  | error e =>
    have htold : (ext (at_.below name).fs).getattr (at_.below name).path = .error e := hasked
    simp [htold, tell, Tree.descendTold]
  | ok b =>
    have htold : (ext (at_.below name).fs).getattr (at_.below name).path = .ok b := hasked
    simp [htold, tell, Tree.descendTold]

theorem ofFsPath_below {p : FsPath} (h : ns.ofFsPath p = .ok path) (hname : nameFault? name = none) :
    ns.ofFsPath (p.joinName name) = .ok (path.below name) := by
  have hone : ∀ n ∈ [name], nameFault? n = none := fun n hn => List.mem_singleton.1 hn ▸ hname
  rw [AbsolutePath.below, (ofFsPath_eq_ok.1 h).2.1]
  exact ofFsPath_foldl h hone

variable {entries : List Entry}

/-- a directory of the tree lists what names behind it find -/
theorem lists_directory (h : ns.tree.Linked) (ha : ns.tree.Apart) {v : NodeId} {d : Directory}
    (hp : ns.place ext path = .ok (.directory v d)) (hl : ns.listDirectory ext path = .ok entries) :
    Lists (.vertex ns.id v) entries fun name => ns.readAttributes ext (path.below name) := by
  rw [listDirectory, hp] at hl
  cases hl
  exact Tree.lists_listTree h ha ns.id fun name a _ => readAttributes_child hp

/-- a place outside lists what names behind it find if its filesystem does -/
theorem lists_external {at_ : ExternalPath} {seat : Seat} (hp : ns.place ext path = .ok place)
    (hat : place.external? = some at_)
    (h : Lists seat entries fun name => (ext at_.fs).getattr (at_.path.joinName name)) :
    Lists seat entries fun name => ns.readAttributes ext (path.below name) :=
  h.congr fun _ _ hname => readAttributes_below hp hat hname

end Below

end Namespace

end MountSpace

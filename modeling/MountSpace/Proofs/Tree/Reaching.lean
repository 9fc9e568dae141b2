/-
Where a path ends. The names of a path find a vertex, or one of them is missing in a directory, or a mount takes what is
left of them (`Fate`), and the mounted filesystem is asked for nothing before that. From a mount on, every place on the
way has to exist (`Paved`), and the first that does not refuses the whole path (`walk_outside`).

A vertex that names find is in view at them (`finds_iff_inView`): on the way to it from the root lie directories only.
-/
import MountSpace.Proofs.Tree.Finding

namespace MountSpace

/-- every place behind this one along the names, the last included, exists -/
def ExternalPath.Paved (at_ : ExternalPath) (ext : External) (names : List String) : Prop :=
  ∀ run, run ≠ [] → run <+: names → ask (run.foldl .below at_) ext = .ok ()

namespace ExternalPath

theorem paved_nil (at_ : ExternalPath) (ext : External) : at_.Paved ext [] :=
  fun _ hne hrun => absurd (List.prefix_nil.1 hrun) hne

theorem paved_cons {at_ : ExternalPath} {ext : External} {name : String} {rest : List String} :
    at_.Paved ext (name :: rest) ↔ ask (at_.below name) ext = .ok () ∧ (at_.below name).Paved ext rest := by
  constructor
  · intro h
    refine ⟨h [name] (List.cons_ne_nil _ _) ⟨rest, rfl⟩, fun run _ hrun => ?_⟩
    exact h (name :: run) (List.cons_ne_nil _ _) (List.cons_prefix_cons.2 ⟨rfl, hrun⟩)
  · rintro ⟨hfirst, hrest⟩ run hne hrun
    obtain ⟨first, more, rfl⟩ := List.exists_cons_of_ne_nil hne
    obtain ⟨rfl, hmore⟩ := List.cons_prefix_cons.1 hrun
    by_cases hnil : more = []
    · rw [hnil]
      exact hfirst
    · exact hrest more hnil hmore

end ExternalPath

namespace Tree

/-- the vertex is in view at the names: they are those of its way from the root, apart from case, and no vertex above
it on the way is a mount -/
def InView (t : Tree) (v : NodeId) (names : List String) : Prop :=
  ∃ way, t.Leads v way ∧ foldNames way = foldNames names ∧
    ∀ a above m, t.Leads a above → above <+: way → above ≠ way → t.node? a ≠ some (.mount m)

/-- what becomes of names from a vertex: they find one, one of them is missing in a directory, or a mount takes the
rest -/
inductive Fate (t : Tree) (id : NodeId) : List String → Prop where
  | found {names : List String} {v : NodeId} {n : Node} (finds : t.Finds id names v) (node : t.node? v = some n) :
      Fate t id names
  | absent {front rest : List String} {name : String} {p : NodeId} {d : Directory} (finds : t.Finds id front p)
      (node : t.node? p = some (.directory d)) (free : t.findChild p name = none) : Fate t id (front ++ name :: rest)
  | handed {front rest : List String} {name : String} {v : NodeId} {m : MountNode} (finds : t.Finds id front v)
      (node : t.node? v = some (.mount m)) : Fate t id (front ++ name :: rest)

section View

variable {t : Tree} {v : NodeId} {names : List String}

/-- what names find is in view at them -/
theorem Finds.inView (ha : t.Apart) (hv : t.Finds t.root names v) : t.InView v names := by
  obtain ⟨way, hway, hfold⟩ := hv.leads .root
  rw [List.nil_append] at hway
  refine ⟨way, hway, hfold, ?_⟩
  intro a above m hlead hpre hne hmount
  -- the first names find what lies above
  rw [← List.take_append_drop above.length names] at hv hfold
  obtain ⟨mid, hfront, hback⟩ := finds_append.1 hv
  have hlength : above.length ≤ names.length := by
    have hle := hpre.length_le
    rwa [← length_foldNames way, hfold, length_foldNames, List.take_append_drop] at hle
  obtain ⟨rest, rfl⟩ := hpre
  rw [foldNames_append, foldNames_append] at hfold
  obtain ⟨habove, hrest⟩ := List.append_inj hfold (by simp [length_foldNames, hlength])
  obtain ⟨way', hway', hfold'⟩ := hfront.leads .root
  cases leads_injective ha hlead hway' (by rw [List.nil_append, hfold', habove])
  cases hb : names.drop above.length with
  | nil =>
    rw [hb] at hrest
    exact hne (by rw [List.map_eq_nil_iff.1 hrest, List.append_nil])
  | cons name more =>
    rw [hb] at hback
    cases hback with
    | down node _ _ =>
      rw [hmount] at node
      cases node

/-- a vertex in view is found -/
theorem InView.finds (h : t.Linked) (ha : t.Apart) (hv : t.InView v names) : t.Finds t.root names v := by
  obtain ⟨way, hway, hfold, hclear⟩ := hv
  induction hway generalizing names with
  | root =>
    rw [List.map_eq_nil_iff.1 hfold.symm]
    exact .here
  | @child p c above own hup below named ih =>
    rw [foldNames_append, foldNames_singleton] at hfold
    obtain ⟨front, last, hnames, hfront, hlast⟩ := List.map_eq_append_iff.1 hfold.symm
    obtain ⟨name, hname, hsame⟩ := List.map_eq_singleton_iff.1 hlast
    rw [hnames, hname]
    have hp : t.Finds t.root front p := by
      refine ih hfront.symm ?_
      intro a further m hlead hpre hne
      refine hclear a further m hlead (hpre.trans (List.prefix_append _ _)) ?_
      rintro rfl
      have hle := hpre.length_le
      rw [List.length_append, List.length_singleton] at hle
      omega
    obtain ⟨n, hn⟩ := Option.isSome_iff_exists.1 ((t.node?_isSome p).trans (h.present (h.attached_parent below)))
    have hchild : t.findChild p name = some c := ha.findChild below (by rw [key?, named, hsame]; rfl)
    cases n with
    | directory d => exact hp.snoc hn hchild
    | mount m => exact absurd hn (hclear p above m hup (List.prefix_append _ _) (by simp))

theorem finds_iff_inView (h : t.Linked) (ha : t.Apart) : t.Finds t.root names v ↔ t.InView v names :=
  ⟨Finds.inView ha, InView.finds h ha⟩

/-- names equal apart from case have the same in view -/
theorem inView_congr {others : List String} (hfold : foldNames names = foldNames others) :
    t.InView v names ↔ t.InView v others := by
  rw [InView, InView, hfold]

/-- what is in view is there -/
theorem InView.present (h : t.Linked) (hv : t.InView v names) : ∃ n, t.node? v = some n := by
  obtain ⟨way, hway, -⟩ := hv
  exact Option.isSome_iff_exists.1 ((t.node?_isSome v).trans (h.present (hway.attached h)))

end View

/-! ## What becomes of a path -/

section Fate

variable {t : Tree} {id : NodeId}

/-- from a vertex that is there, names have one of the three fates -/
theorem fate {n : Node} (hn : t.node? id = some n) (names : List String) : t.Fate id names := by
  induction names generalizing id n with
  | nil => exact .found .here hn
  | cons name rest ih =>
    cases n with
    | mount m => exact (.handed .here hn : t.Fate id ([] ++ name :: rest))
    | directory d =>
      cases hc : t.findChild id name with
      | none => exact (.absent .here hn hc : t.Fate id ([] ++ name :: rest))
      | some c =>
        obtain ⟨-, own, hown, -⟩ := findChild_eq_some hc
        obtain ⟨nc, hnc, -⟩ := Option.map_eq_some_iff.1 hown
        cases ih hnc with
        | found finds node => exact .found (.down hn hc finds) node
        | absent finds node free => exact .absent (.down hn hc finds) node free
        | handed finds node => exact .handed (.down hn hc finds) node

variable {path : AbsolutePath} {front rest : List String} {name : String} {v : NodeId}

/-- a name missing in a directory refuses every path through it, whatever the filesystems answer -/
theorem Finds.resolve_absent {d : Directory} (h : t.Finds t.root front v) (node : t.node? v = some (.directory d))
    (free : t.findChild v name = none) (hnames : path.names = front ++ name :: rest) (ext : External) :
    t.resolve ext path = .error (MountSpace.missing (front ++ [name])) := by
  obtain ⟨root, hroot⟩ := Option.isSome_iff_exists.1 (h.present (Option.isSome_of_eq_some node))
  have hfront : t.walk ext path [] (.ofNode t.root root) front = .ok (.directory v d) := h.walk hroot node ext path []
  have hnone : t.child? v name = none := by rw [child?, free]; rfl
  rw [Tree.resolve, hroot, hnames]
  simp only [walk_append, hfront, Tree.walk, Tree.step, hnone, List.nil_append]

/-- a mount takes what is left of the names -/
theorem Finds.resolve_handed {m : MountNode} (h : t.Finds t.root front v) (node : t.node? v = some (.mount m))
    (hnames : path.names = front ++ rest) (ext : External) :
    t.resolve ext path = t.walk ext path front (.mount v m) rest := by
  obtain ⟨root, hroot⟩ := Option.isSome_iff_exists.1 (h.present (Option.isSome_of_eq_some node))
  have hfront : t.walk ext path [] (.ofNode t.root root) front = .ok (.mount v m) := h.walk hroot node ext path []
  rw [Tree.resolve, hroot, hnames]
  simp only [walk_append, hfront, List.nil_append]

/-- **Where a path leads.** It ends at a vertex, or a name of it is missing in a directory, or the rest of it is walked
from a mount; which of them, the filesystems have no say in. -/
theorem resolve_cases {root : Node} (hroot : t.node? t.root = some root) (path : AbsolutePath) :
    (∃ v n, t.Finds t.root path.names v ∧ t.node? v = some n ∧ ∀ ext, t.resolve ext path = .ok (.ofNode v n)) ∨
    (∃ walked, ∀ ext, t.resolve ext path = .error (MountSpace.missing walked)) ∨
    ∃ front back v m, path.names = front ++ back ∧ back ≠ [] ∧ t.Finds t.root front v ∧ t.node? v = some (.mount m) ∧
      ∀ ext, t.resolve ext path = t.walk ext path front (.mount v m) back := by
  generalize hnames : path.names = names
  cases fate hroot names with
  | @found _ v n finds node => exact .inl ⟨v, n, finds, node, (hnames ▸ finds).resolve node⟩
  | @absent front _ name _ _ finds node free =>
    exact .inr (.inl ⟨front ++ [name], finds.resolve_absent node free hnames⟩)
  | @handed front rest name v m finds node =>
    exact .inr (.inr ⟨front, name :: rest, v, m, rfl, List.cons_ne_nil _ _, finds, node,
      finds.resolve_handed node hnames⟩)

end Fate

/-! ## Behind a mount -/

/-- **A walk outside goes as far as there are places.** Either all places on the way exist and it ends at the last of
them, or the first that does not refuses it. -/
theorem walk_outside (t : Tree) (ext : External) (path : AbsolutePath) (walked : List String) {names : List String}
    {place : Place} {at_ : ExternalPath} (hplace : place.external? = some at_)
    (hvalid : ∀ n ∈ names, nameFault? n = none) :
    (at_.Paved ext names ∧ ∃ p, t.walk ext path walked place names = .ok p ∧
      p.external? = some (names.foldl .below at_)) ∨
    ∃ before name after e, names = before ++ name :: after ∧ at_.Paved ext before ∧
      ask ((before ++ [name]).foldl .below at_) ext = .error e ∧
      t.walk ext path walked place names = .error (Outline.refusal path (walked ++ (before ++ [name])) e) := by
  induction names generalizing walked place at_ with
  | nil => exact .inl ⟨at_.paved_nil ext, place, rfl, hplace⟩
  | cons name rest ih =>
    rw [List.forall_mem_cons] at hvalid
    have hstep := step_eq_told t path walked (Place.asks_of_external hplace hvalid.1) ext
    cases hask : ask (at_.below name) ext with
    | error e =>
      rw [hask] at hstep
      refine .inr ⟨[], name, rest, e, rfl, at_.paved_nil ext, hask, ?_⟩
      rw [walk, hstep]
      rfl
    | ok _ =>
      rw [hask] at hstep
      have hwalk : t.walk ext path walked place (name :: rest) =
          t.walk ext path (walked ++ [name]) (.real name (at_.below name)) rest := by
        rw [walk, hstep]
        rfl
      rw [hwalk]
      have hbelow : (Place.real name (at_.below name)).external? = some (at_.below name) := rfl
      rcases ih (walked ++ [name]) hbelow hvalid.2 with
        ⟨hpaved, p, hok, hend⟩ | ⟨before, last, after, e, rfl, hpaved, hlast, herror⟩
      · exact .inl ⟨ExternalPath.paved_cons.2 ⟨hask, hpaved⟩, p, hok, hend⟩
      · refine .inr ⟨name :: before, last, after, e, rfl, ExternalPath.paved_cons.2 ⟨hask, hpaved⟩, hlast, ?_⟩
        rw [herror, List.append_assoc, List.singleton_append, List.cons_append]

end Tree

end MountSpace

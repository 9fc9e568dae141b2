/-
When a resolution comes back. Namespaces that mount one another ask one another, and nothing keeps a question from being
asked again while it is being answered: then it is never answered. This is the only way a resolution can fail to return
(`returns_iff_not_goesRound`). All other paths return after finitely many questions, however the mounts lie, cycles of
namespaces included.

That a question which goes round is never answered is a descent on the depth at which it is settled. The converse has
to find the round. A walk goes name by name, so the first question it gets no answer to is one name longer than a place
that did answer; followed down, that name comes to stand right behind the source of a mount (`reaches_source`). There
are finitely many sources and names, so among endlessly many such questions one comes twice.
-/
import MountSpace.Proofs.Path.Given
import MountSpace.Proofs.World.Crossing
import MountSpace.World.Edit
import Mathlib.Data.Fintype.EquivFin
import Mathlib.Data.Set.Finite.Basic
import Mathlib.Logic.Relation

namespace MountSpace

namespace World

/-! ## Questions and rounds -/

/-- the walk along a path settles after finitely many crossings, each of them a question for every name at most -/
def Returns (w : World) (ns : Namespace) (path : AbsolutePath) : Prop :=
  ∃ n r, w.Gives n (fun ext => ns.tree.resolve ext path) r

/-- walking along the path, this question is asked: the names before have led to a place, and the next step asks it -/
def AsksAt (w : World) (ns : Namespace) (path : AbsolutePath) (q : ExternalPath) : Prop :=
  ∃ n before name rest place, path.names = before ++ name :: rest ∧
    w.Gives n (fun ext => ns.tree.resolve ext ⟨path.owner, before⟩) (.ok place) ∧ place.asks name = some q

/-- to answer the first question a namespace asks the second -/
def Asks (w : World) (q r : ExternalPath) : Prop :=
  ∃ id ns path, q.fs = .space id ∧ w.namespace? id = some ns ∧ ns.isOpen = true ∧ ns.ofFsPath q.path = .ok path ∧
    w.AsksAt ns path r

/-- the path leads to a question that has to be answered before it can be answered -/
def GoesRound (w : World) (ns : Namespace) (path : AbsolutePath) : Prop :=
  ∃ q r, w.AsksAt ns path q ∧ Relation.ReflTransGen w.Asks q r ∧ Relation.TransGen w.Asks r r

/-- the question has an answer -/
def Answered (w : World) (q : ExternalPath) : Prop := ∃ n r, w.Gives n (ask q) r

/-- what is asked along a path, told by the walk from the root -/
theorem asksAt_iff {w : World} {ns : Namespace} {path : AbsolutePath} {q : ExternalPath} :
    w.AsksAt ns path q ↔ ∃ node n before name rest place, ns.tree.node? ns.tree.root = some node ∧
      path.names = before ++ name :: rest ∧
      w.Gives n (fun ext => ns.tree.walk ext path [] (.ofNode ns.tree.root node) before) (.ok place) ∧
      place.asks name = some q := by
  constructor
  · rintro ⟨n, before, name, rest, place, hn, hg, hq⟩
    cases hroot : ns.tree.node? ns.tree.root with
    | none =>
      have hg := hg (silence "")
      simp only [Tree.resolve, hroot] at hg
      cases hg
    | some node =>
      refine ⟨node, n, before, name, rest, place, rfl, hn, fun beyond => ?_, hq⟩
      have hb := hg beyond
      simp only [Tree.resolve, hroot] at hb
      exact Tree.walk_ok_path hb path []
  · rintro ⟨node, n, before, name, rest, place, hroot, hn, hg, hq⟩
    refine ⟨n, before, name, rest, place, hn, fun beyond => ?_, hq⟩
    simp only [Tree.resolve, hroot]
    exact Tree.walk_ok_path (hg beyond) _ []

/-! ## A round is never answered -/

section Descent

variable {w : World}

/-- a walk that settles at a depth has had answers to its questions by that depth -/
theorem walk_asked_settled {t : Tree} {path : AbsolutePath} {walked before rest : List String} {name : String}
    {place p : Place} {k m : Nat} {r : Except FsError Place} {q : ExternalPath}
    (h : w.Gives k (fun ext => t.walk ext path walked place (before ++ name :: rest)) r)
    (hp : w.Gives m (fun ext => t.walk ext path walked place before) (.ok p)) (hq : p.asks name = some q) :
    ∃ r, w.Gives k (ask q) r := by
  rcases walk_settled_or_stuck (ask_settled_or_stuck w k) t path before walked place with ⟨r', hr'⟩ | hs
  · obtain rfl := hr'.unique hp
    rcases ask_settled_or_stuck w k q with hsettled | hs
    · exact hsettled
    · refine absurd (fun word => ?_) h.not_stuck
      have hb : t.walk (w.deep k (silence word)) path walked place before = .ok p := hr' (silence word)
      simp only [Tree.walk_append, hb, Tree.walk, Tree.step_eq_told t path _ hq, hs word]
      rfl
  · refine absurd (fun word => ?_) h.not_stuck
    have hb : t.walk (w.deep k (silence word)) path walked place before = .error (.other word) := hs word
    simp only [Tree.walk_append, hb]

theorem resolve_asked_settled {ns : Namespace} {path : AbsolutePath} {k : Nat} {r : Except FsError Place}
    (h : w.Gives k (fun ext => ns.tree.resolve ext path) r) {q : ExternalPath} (ha : w.AsksAt ns path q) :
    ∃ r, w.Gives k (ask q) r := by
  obtain ⟨node, m, before, name, rest, place, hroot, hn, hg, hq⟩ := asksAt_iff.1 ha
  simp only [Tree.resolve, hroot, hn] at h
  exact walk_asked_settled h hg hq

theorem check_ofFsPath {ns : Namespace} (ho : ns.isOpen = true) {p : FsPath} {path : AbsolutePath}
    (hp : ns.ofFsPath p = .ok path) : ns.check path = .ok () := by
  rw [Namespace.check, if_pos ho, Namespace.checkBelongs, if_pos (Namespace.ofFsPath_eq_ok.1 hp).2.1]

/-- a question to an open namespace, at a path of its own, is the walk along that path -/
theorem ask_eq_tellPlace {q : ExternalPath} {id : NamespaceId} {ns : Namespace} {path : AbsolutePath}
    (hfs : q.fs = .space id) (hns : w.namespace? id = some ns) (ho : ns.isOpen = true)
    (hp : ns.ofFsPath q.path = .ok path) (beyond : External) :
    ask q (w.cross beyond) = tellPlace beyond (ns.tree.resolve beyond path) := by
  obtain ⟨fs, p⟩ := q
  obtain rfl : fs = .space id := hfs
  simp only [ask_space, hns, hp, check_ofFsPath ho hp]

/-- with an answer, the walk it comes from is settled one crossing sooner -/
theorem walk_sooner {q : ExternalPath} {id : NamespaceId} {ns : Namespace} {path : AbsolutePath}
    (hfs : q.fs = .space id) (hns : w.namespace? id = some ns) (ho : ns.isOpen = true)
    (hp : ns.ofFsPath q.path = .ok path) {k : Nat} {r : Except FsError Unit} (h : w.Gives (k + 1) (ask q) r) :
    ∃ r, w.Gives k (fun ext => ns.tree.resolve ext path) r := by
  rcases resolve_settled_or_stuck (ask_settled_or_stuck w k) ns.tree path with hsettled | hs
  · exact hsettled
  · refine absurd (fun word => ?_) h.not_stuck
    have hb : ns.tree.resolve (w.deep k (silence word)) path = .error (.other word) := hs word
    rw [deep, ask_eq_tellPlace hfs hns ho hp, hb]
    rfl

/-- what is asked for an answer has its own answer one crossing sooner -/
theorem asked_sooner {q q' : ExternalPath} {k : Nat} {r : Except FsError Unit} (h : w.Gives k (ask q) r)
    (ha : w.Asks q q') : ∃ j, j < k ∧ ∃ r, w.Gives j (ask q') r := by
  obtain ⟨id, ns, path, hfs, hns, ho, hp, hat⟩ := ha
  cases k with
  | zero => exact absurd (fun word => rfl) h.not_stuck
  | succ k =>
    obtain ⟨r', hr'⟩ := walk_sooner hfs hns ho hp h
    exact ⟨k, Nat.lt_succ_self k, resolve_asked_settled hr' hat⟩

theorem reached_sooner {q q' : ExternalPath} {k : Nat} {r : Except FsError Unit} (h : w.Gives k (ask q) r)
    (ha : Relation.TransGen w.Asks q q') : ∃ j, j < k ∧ ∃ r, w.Gives j (ask q') r := by
  induction ha with
  | single ha => exact asked_sooner h ha
  | tail _ ha ih =>
    obtain ⟨j, hj, r, hr⟩ := ih
    obtain ⟨i, hi, hr'⟩ := asked_sooner hr ha
    exact ⟨i, Nat.lt_trans hi hj, hr'⟩

theorem not_answered_of_round {q : ExternalPath} (hq : Relation.TransGen w.Asks q q) : ¬ w.Answered q := by
  rintro ⟨n, r, h⟩
  induction n using Nat.strong_induction_on generalizing r with
  | _ n ih =>
    obtain ⟨j, hj, r', hr'⟩ := reached_sooner h hq
    exact ih j hj r' hr'

theorem not_goesRound_of_returns {ns : Namespace} {path : AbsolutePath} (h : w.Returns ns path) :
    ¬ w.GoesRound ns path := by
  rintro ⟨q, q', hat, hreach, hround⟩
  obtain ⟨n, r, hr⟩ := h
  obtain ⟨r', hq⟩ := resolve_asked_settled hr hat
  refine not_answered_of_round hround ?_
  rcases Relation.reflTransGen_iff_eq_or_transGen.1 hreach with rfl | hreach
  · exact ⟨n, r', hq⟩
  · obtain ⟨j, -, r'', hj⟩ := reached_sooner hq hreach
    exact ⟨j, r'', hj⟩

end Descent

/-! ## The first question without an answer -/

section Unanswered

variable {w : World}

/-- a walk that does not settle has a first question that is not answered -/
theorem walk_first_unanswered (t : Tree) (path : AbsolutePath) (names walked : List String) (place : Place) :
    (∃ n r, w.Gives n (fun ext => t.walk ext path walked place names) r) ∨
      ∃ before name rest n p q, names = before ++ name :: rest ∧
        w.Gives n (fun ext => t.walk ext path walked place before) (.ok p) ∧ p.asks name = some q ∧ ¬ w.Answered q := by
  induction names generalizing walked place with
  | nil => exact .inl ⟨0, .ok place, fun _ => rfl⟩
  | cons name rest ih =>
    have go : ∀ m r, w.Gives m (fun ext => t.step ext path walked name place) r →
        (∃ n r, w.Gives n (fun ext => t.walk ext path walked place (name :: rest)) r) ∨
          ∃ before nm later n p q, name :: rest = before ++ nm :: later ∧
            w.Gives n (fun ext => t.walk ext path walked place before) (.ok p) ∧ p.asks nm = some q ∧
            ¬ w.Answered q := by
      intro m r hr
      have hwalk : ∀ {n} beyond more, m ≤ n → t.walk (w.deep n beyond) path walked place (name :: more) =
          r.bind fun next => t.walk (w.deep n beyond) path (walked ++ [name]) next more := by
        intro n beyond more hmn
        have hb : t.step (w.deep n beyond) path walked name place = r := hr.mono hmn beyond
        rw [Tree.walk, hb]
        cases r <;> rfl
      rcases r with e | next
      · exact .inl ⟨m, .error e, fun beyond => hwalk beyond rest (Nat.le_refl m)⟩
      rcases ih (walked ++ [name]) next with ⟨n, r, hg⟩ | ⟨before, nm, later, n, p, q, hcut, hg, hq, hu⟩
      · refine .inl ⟨max m n, r, fun beyond => ?_⟩
        exact (hwalk beyond rest (Nat.le_max_left m n)).trans (hg.mono (Nat.le_max_right m n) beyond)
      · refine .inr ⟨name :: before, nm, later, max m n, p, q, by rw [hcut]; rfl, fun beyond => ?_, hq, hu⟩
        exact (hwalk beyond before (Nat.le_max_left m n)).trans (hg.mono (Nat.le_max_right m n) beyond)
    cases ha : place.asks name with
    | none =>
      refine go 0 (t.step (silence "") path walked name place) fun beyond => ?_
      exact Tree.step_of_asks_none t path walked ha ..
    | some q =>
      by_cases hq : w.Answered q
      · obtain ⟨m, r, hr⟩ := hq
        refine go m (Tree.descendTold path walked name q r) fun beyond => ?_
        simp only [Tree.step_eq_told t path walked ha, hr beyond]
      · exact .inr ⟨[], name, rest, 0, place, q, rfl, fun _ => rfl, ha, hq⟩

/-- a question without an answer is one to an open namespace, and on its path another such question is asked -/
theorem unanswered_asks {q : ExternalPath} (hu : ¬ w.Answered q) : ∃ id ns path node before name rest n p q',
    q.fs = .space id ∧ w.namespace? id = some ns ∧ ns.isOpen = true ∧ ns.ofFsPath q.path = .ok path ∧
      ns.tree.node? ns.tree.root = some node ∧ path.names = before ++ name :: rest ∧
      w.Gives n (fun ext => ns.tree.walk ext path [] (.ofNode ns.tree.root node) before) (.ok p) ∧
      p.asks name = some q' ∧ ¬ w.Answered q' := by
  obtain ⟨fs, fp⟩ := q
  have settled : ∀ n r, (∀ beyond, ask ⟨fs, fp⟩ (w.cross (w.deep n beyond)) = r) → False :=
    fun n r h => hu ⟨n + 1, r, h⟩
  cases fs with
  | volume k => exact (settled 0 (tell ((w.volumeAnswers k).getattr fp)) fun _ => rfl).elim
  | space id =>
    simp only [ask_space] at settled
    cases hns : w.namespace? id with
    | none => exact (settled 0 _ fun _ => by rw [hns]).elim
    | some ns =>
      simp only [hns] at settled
      cases hp : ns.ofFsPath fp with
      | error e => exact (settled 0 _ fun _ => by rw [hp]).elim
      | ok path =>
        simp only [hp] at settled
        cases ho : ns.isOpen with
        | false =>
          have hclosed : ns.check path = .error .closed := by rw [Namespace.check, ho]; rfl
          exact (settled 0 _ fun _ => by rw [hclosed]).elim
        | true =>
          simp only [check_ofFsPath ho hp, Tree.resolve] at settled
          cases hroot : ns.tree.node? ns.tree.root with
          | none => exact (settled 0 (.error (.notFound path.text)) fun _ => by rw [hroot]; rfl).elim
          | some node =>
            simp only [hroot] at settled
            rcases walk_first_unanswered (w := w) ns.tree path path.names [] (.ofNode ns.tree.root node) with
              ⟨n, r, hg⟩ | ⟨before, name, rest, n, p, q', hcut, hg, hq, hu'⟩
            · have hg : ∀ beyond,
                  ns.tree.walk (w.deep n beyond) path [] (.ofNode ns.tree.root node) path.names = r := hg
              have settled := settled n
              simp only [hg] at settled
              rcases r with e | ⟨pid, dir⟩ | ⟨pid, m⟩ | ⟨name, at_⟩
              · exact (settled _ fun _ => rfl).elim
              · exact (settled _ fun _ => rfl).elim
              · exact (settled _ fun _ => rfl).elim
              · refine (settled (.ok ()) fun beyond => ?_).elim
                rcases Tree.ask_of_walk_real (hg beyond) with hstart | hask
                · cases node <;> cases hstart
                · exact hask
            · exact ⟨id, ns, path, node, before, name, rest, n, p, q', rfl, hns, ho, hp, hroot, hcut, hg, hq, hu'⟩

end Unanswered

/-! ## The source a name comes to stand behind -/

section Sources

variable {w : World}

/-- the sources of all mounts, shadowed and detached ones included -/
def sources (w : World) : List ExternalPath :=
  w.namespaces.toList.flatMap fun ns => ns.tree.slots.toList.filterMap fun
    | some ⟨.mount m, _, _⟩ => some m.record.source
    | _ => none

theorem mem_sources {id : NamespaceId} {ns : Namespace} (hns : w.namespace? id = some ns) {n : NodeId} {m : MountNode}
    (hm : ns.tree.node? n = some (.mount m)) : m.record.source ∈ w.sources := by
  rw [sources, List.mem_flatMap]
  refine ⟨ns, ?_, ?_⟩
  · rw [namespace?] at hns
    split at hns
    · cases hns
    · exact Array.mem_toList_iff.2 (Array.mem_of_getElem? hns)
  · obtain ⟨⟨node, parent, children⟩, hv, rfl⟩ := Option.map_eq_some_iff.1 hm
    rw [List.mem_filterMap]
    refine ⟨some ⟨.mount m, parent, children⟩, ?_, rfl⟩
    exact Array.mem_toList_iff.2 (Array.mem_of_getElem? (Option.join_eq_some_iff.1 hv))

/-- the source of a mount that a walk ends at -/
theorem source_of_walk {id : NamespaceId} {ns : Namespace} (hns : w.namespace? id = some ns) {root : Node}
    (hroot : ns.tree.node? ns.tree.root = some root) {ext : External} {path : AbsolutePath} {names : List String}
    {n : NodeId} {m : MountNode}
    (h : ns.tree.walk ext path [] (.ofNode ns.tree.root root) names = .ok (.mount n m)) :
    m.record.source ∈ w.sources := by
  refine mem_sources hns (Tree.node?_of_walk_mount (fun cid cm hplace => ?_) h)
  cases root with
  | directory d => cases hplace
  | mount m' => cases hplace; exact hroot

/-- what is asked stands right behind the source of a mount, or behind a place that has been reached outside -/
theorem asked_behind {id : NamespaceId} {ns : Namespace} (hns : w.namespace? id = some ns) {root : Node}
    (hroot : ns.tree.node? ns.tree.root = some root) {ext : External} {path : AbsolutePath} {names : List String}
    {p : Place} (h : ns.tree.walk ext path [] (.ofNode ns.tree.root root) names = .ok p) {name : String}
    {q : ExternalPath} (hq : p.asks name = some q) (hname : nameFault? name = none) :
    (∃ source ∈ w.sources, q = source.below name) ∨ ∃ pname at_, p = .real pname at_ ∧ q = at_.below name := by
  rcases p with ⟨pid, dir⟩ | ⟨pid, m⟩ | ⟨pname, at_⟩
  · cases hq
  · rw [Place.asks_of_external rfl hname] at hq
    exact .inl ⟨m.record.source, source_of_walk hns hroot h, (Option.some.inj hq).symm⟩
  · rw [Place.asks_of_external rfl hname] at hq
    exact .inr ⟨pname, at_, rfl, (Option.some.inj hq).symm⟩

/-- below an existing place, the name of an unanswered question follows the place down to the source of a mount -/
theorem reaches_source {q : ExternalPath} {k : Nat} (h : w.Gives k (ask q) (.ok ())) {name : String}
    (hname : nameFault? name = none) (hu : ¬ w.Answered (q.below name)) :
    ∃ source ∈ w.sources, Relation.TransGen w.Asks (q.below name) (source.below name) ∧
      ¬ w.Answered (source.below name) := by
  induction k generalizing q with
  | zero => exact absurd (fun word => rfl) h.not_stuck
  | succ k ih =>
    obtain ⟨id, ns, path, root, before, nm, rest, n, p, q', hfs, hns, ho, hp, hroot, hcut, hg, hq, hu'⟩ :=
      unanswered_asks hu
    have hasks : w.Asks (q.below name) q' :=
      ⟨id, ns, path, hfs, hns, ho, hp, asksAt_iff.2 ⟨root, n, before, nm, rest, p, hroot, hcut, hg, hq⟩⟩
    obtain ⟨front, hfront, hnames⟩ := Namespace.ofFsPath_joinName hname hp
    have hfs' : q.fs = .space id := hfs
    rcases rest.eq_nil_or_concat with rfl | ⟨more, last, rfl⟩
    · -- the last step asks: from the place itself to the name
      obtain ⟨rfl, hnm⟩ := List.append_inj' (hcut.symm.trans hnames) rfl
      obtain rfl : nm = name := by simpa using hnm
      rcases asked_behind hns hroot (hg (silence "")) hq hname with ⟨source, hs, rfl⟩ | ⟨pname, at_, rfl, rfl⟩
      · exact ⟨source, hs, .single hasks, hu'⟩
      · -- the place it ends at is told of with it, one crossing sooner
        have hat : w.Gives k (ask at_) (.ok ()) := by
          obtain ⟨r, hr⟩ := walk_sooner hfs' hns ho hfront h
          have hend : w.Gives n (fun ext => ns.tree.resolve ext ⟨ns.id, before⟩) (.ok (.real pname at_)) := by
            intro beyond
            simp only [Tree.resolve, hroot]
            exact Tree.walk_ok_path (hg beyond) _ []
          obtain rfl := hr.unique hend
          intro beyond
          have hb := h beyond
          have hwalk : ns.tree.resolve (w.deep k beyond) ⟨ns.id, before⟩ = .ok (.real pname at_) := hr beyond
          rw [deep, ask_eq_tellPlace hfs' hns ho hfront, hwalk] at hb
          exact hb
        obtain ⟨source, hs, hreach, hunanswered⟩ := ih hat hu'
        exact ⟨source, hs, .head hasks hreach, hunanswered⟩
    · -- an earlier step asks, which the place has been asked as well
      have hsplit : front = before ++ nm :: more := by
        have hends : front ++ [name] = (before ++ nm :: more) ++ [last] := by rw [← hnames, hcut]; simp
        exact (List.append_inj' hends rfl).1
      have hearly : w.Asks q q' :=
        ⟨id, ns, ⟨ns.id, front⟩, hfs', hns, ho, hfront, asksAt_iff.2
          ⟨root, n, before, nm, more, p, hroot, hsplit, fun beyond => Tree.walk_ok_path (hg beyond) _ [], hq⟩⟩
      obtain ⟨j, -, r, hr⟩ := asked_sooner h hearly
      exact absurd ⟨j, r, hr⟩ hu'

/-- an unanswered question comes to stand behind the source of a mount, with one of its names -/
theorem unanswered_reaches {q : ExternalPath} (hu : ¬ w.Answered q) :
    ∃ source ∈ w.sources, ∃ name ∈ q.path.names, nameFault? name = none ∧
      Relation.TransGen w.Asks q (source.below name) ∧ ¬ w.Answered (source.below name) := by
  obtain ⟨id, ns, path, root, before, name, rest, n, p, q', hfs, hns, ho, hp, hroot, hcut, hg, hq, hu'⟩ :=
    unanswered_asks hu
  have hasks : w.Asks q q' :=
    ⟨id, ns, path, hfs, hns, ho, hp, asksAt_iff.2 ⟨root, n, before, name, rest, p, hroot, hcut, hg, hq⟩⟩
  have hmem : name ∈ path.names := by rw [hcut]; simp
  have hname : nameFault? name = none := (Namespace.ofFsPath_eq_ok.1 hp).2.2 name hmem
  rw [FsPath.names_of_ofFsPath hp]
  rcases asked_behind hns hroot (hg (silence "")) hq hname with ⟨source, hs, rfl⟩ | ⟨pname, at_, rfl, rfl⟩
  · exact ⟨source, hs, name, hmem, hname, .single hasks, hu'⟩
  · have hat : w.Gives n (ask at_) (.ok ()) := by
      intro beyond
      rcases Tree.ask_of_walk_real (hg beyond) with hstart | hask
      · cases root <;> cases hstart
      · exact hask
    obtain ⟨source, hs, hreach, hunanswered⟩ := reaches_source hat hname hu'
    exact ⟨source, hs, name, hmem, hname, .head hasks hreach, hunanswered⟩

/-- some names and the names of all sources, those that are valid, each right behind each source -/
def stations (w : World) (names : List String) : List ExternalPath :=
  w.sources.flatMap fun source =>
    ((names ++ w.sources.flatMap fun s => s.path.names).filter (nameFault? · = none)).map source.below

theorem mem_stations {names : List String} {r : ExternalPath} : r ∈ w.stations names ↔
    ∃ source ∈ w.sources, ∃ name, nameFault? name = none ∧ (name ∈ names ∨ ∃ s ∈ w.sources, name ∈ s.path.names) ∧
      r = source.below name := by
  simp only [stations, List.mem_flatMap, List.mem_map, List.mem_filter, List.mem_append, decide_eq_true_eq]
  constructor
  · rintro ⟨source, hs, name, ⟨hmem, hname⟩, rfl⟩
    exact ⟨source, hs, name, hname, hmem, rfl⟩
  · rintro ⟨source, hs, name, hname, hmem, rfl⟩
    exact ⟨source, hs, name, ⟨hmem, hname⟩, rfl⟩

/-- with a later one for each of finitely many, one comes after itself -/
theorem exists_after_itself {α : Type} {R : α → α → Prop} {S : Set α} (hfinite : S.Finite) (hsome : S.Nonempty)
    (hlater : ∀ a ∈ S, ∃ b ∈ S, Relation.TransGen R a b) : ∃ a ∈ S, Relation.TransGen R a a := by
  by_contra hno
  have hlast : WellFounded fun a b : S => Relation.TransGen R b.1 a.1 := by
    have : Finite S := hfinite
    have : IsTrans S fun a b => Relation.TransGen R b.1 a.1 := ⟨fun a b c hab hbc => hbc.trans hab⟩
    have : Std.Irrefl fun a b : S => Relation.TransGen R b.1 a.1 := ⟨fun a h => hno ⟨a.1, a.2, h⟩⟩
    exact Finite.wellFounded_of_trans_of_irrefl _
  have hnone : ∀ a : S, False := by
    intro a
    induction a using hlast.induction with
    | _ a ih =>
      obtain ⟨b, hb, hab⟩ := hlater a.1 a.2
      exact ih ⟨b, hb⟩ hab
  obtain ⟨a, ha⟩ := hsome
  exact hnone ⟨a, ha⟩

/-- an unanswered question leads into a round -/
theorem exists_round {q : ExternalPath} (hu : ¬ w.Answered q) :
    ∃ r, Relation.ReflTransGen w.Asks q r ∧ Relation.TransGen w.Asks r r := by
  let S : Set ExternalPath := { r | r ∈ w.stations q.path.names ∧ ¬ w.Answered r ∧ Relation.ReflTransGen w.Asks q r }
  have hfinite : S.Finite := (w.stations q.path.names).finite_toSet.subset fun r hr => hr.1
  have hsome : S.Nonempty := by
    obtain ⟨source, hs, name, hmem, hname, hreach, hu'⟩ := unanswered_reaches hu
    have hstation := mem_stations.2 ⟨source, hs, name, hname, .inl hmem, rfl⟩
    exact ⟨source.below name, hstation, hu', hreach.to_reflTransGen⟩
  have hlater : ∀ r ∈ S, ∃ r' ∈ S, Relation.TransGen w.Asks r r' := by
    rintro r ⟨hr, hur, hqr⟩
    obtain ⟨source, hs, name, hmem, hname, hreach, hu'⟩ := unanswered_reaches hur
    have hfrom : name ∈ q.path.names ∨ ∃ s ∈ w.sources, name ∈ s.path.names := by
      obtain ⟨s, hsrc, first, hfirst, hfrom, rfl⟩ := mem_stations.1 hr
      rcases FsPath.mem_names_joinName hfirst hmem with hmem | rfl
      · exact .inr ⟨s, hsrc, hmem⟩
      · exact hfrom
    have hstation := mem_stations.2 ⟨source, hs, name, hname, hfrom, rfl⟩
    exact ⟨source.below name, ⟨hstation, hu', hqr.trans hreach.to_reflTransGen⟩, hreach⟩
  obtain ⟨r, ⟨-, -, hqr⟩, hr⟩ := exists_after_itself hfinite hsome hlater
  exact ⟨r, hqr, hr⟩

end Sources

/-! ## Which resolutions return -/

theorem Returns.settles {w : World} {ns : Namespace} {path : AbsolutePath} (h : w.Returns ns path) :
    ∃ n r, ∀ m, n ≤ m → ns.tree.resolve (w.answers m) path = r := by
  obtain ⟨n, r, hr⟩ := h
  refine ⟨n, r, fun m hm => ?_⟩
  rw [answers_eq_deep]
  exact hr.mono hm (w.answers 0)

/-- a resolution that does not return comes to the end of any number of crossings -/
theorem not_returns_iff_stuck {w : World} {ns : Namespace} {path : AbsolutePath} :
    ¬ w.Returns ns path ↔ ∀ n, w.Stuck n fun ext => ns.tree.resolve ext path := by
  constructor
  · intro h n
    rcases resolve_settled_or_stuck (ask_settled_or_stuck w n) ns.tree path with ⟨r, hr⟩ | hs
    · exact absurd ⟨n, r, hr⟩ h
    · exact hs
  · rintro h ⟨n, r, hr⟩
    exact hr.not_stuck (h n)

/-- **A resolution returns exactly when no question on its way waits for itself.** -/
theorem returns_iff_not_goesRound (w : World) (ns : Namespace) (path : AbsolutePath) :
    w.Returns ns path ↔ ¬ w.GoesRound ns path := by
  refine ⟨not_goesRound_of_returns, fun hround => ?_⟩
  cases hroot : ns.tree.node? ns.tree.root with
  | none =>
    refine ⟨0, .error (.notFound path.text), fun beyond => ?_⟩
    simp only [Tree.resolve, hroot]
  | some root =>
    rcases walk_first_unanswered (w := w) ns.tree path path.names [] (.ofNode ns.tree.root root) with
      ⟨n, r, hg⟩ | ⟨before, name, rest, n, p, q, hcut, hg, hq, hu⟩
    · refine ⟨n, r, fun beyond => ?_⟩
      simp only [Tree.resolve, hroot]
      exact hg beyond
    · obtain ⟨r, hreach, hr⟩ := exists_round hu
      exact absurd ⟨q, r, asksAt_iff.2 ⟨root, n, before, name, rest, p, hroot, hcut, hg, hq⟩, hreach, hr⟩ hround

/-- two namespaces, each with an empty directory -/
def twoSpaces : World :=
  let w := ((new 0).createNamespace {}).2
  let w := (w.createNamespace {}).2
  let w := (w.createDirectory 1 ⟨1, ["a"]⟩).2
  (w.createDirectory 2 ⟨2, ["b"]⟩).2

/-- the second namespace's directory over the first's -/
def firstRequest : Namespace.MountRequest := ⟨⟨.space 2, .ofString "/b"⟩, ⟨1, ["a"]⟩⟩

/-- the first namespace's directory over the second's -/
def secondRequest : Namespace.MountRequest := ⟨⟨.space 1, .ofString "/a"⟩, ⟨2, ["b"]⟩⟩

/-- two namespaces that mount one another -/
def facing : World := ((twoSpaces.mount 1 firstRequest).2.mount 2 secondRequest).2

/-- such a pair is mounted without complaint, and a name below one of its mounts is never found or missed -/
theorem facing_not_returns :
    Namespace.MountRequest.new (.space 2) (.ofString "/b") ⟨1, ["a"]⟩ = .ok firstRequest ∧
    Namespace.MountRequest.new (.space 1) (.ofString "/a") ⟨2, ["b"]⟩ = .ok secondRequest ∧
    (twoSpaces.mount 1 firstRequest).1 = .ok () ∧
    ((twoSpaces.mount 1 firstRequest).2.mount 2 secondRequest).1 = .ok () ∧
    ∃ ns, facing.namespace? 1 = some ns ∧ ¬ facing.Returns ns ⟨1, ["a", "x"]⟩ := by
  let one := (facing.namespace? 1).get rfl
  let two := (facing.namespace? 2).get rfl
  have hfirst : facing.AsksAt one ⟨1, ["a", "x"]⟩ ⟨.space 2, .ofString "/b/x"⟩ :=
    ⟨0, ["a"], "x", [], .mount 2 ⟨"a", ⟨2, ⟨1, ["a"]⟩, ⟨.space 2, .ofString "/b"⟩⟩, .at 6, 1⟩, rfl, fun _ => rfl, rfl⟩
  have hsecond : facing.AsksAt two ⟨2, ["b", "x"]⟩ ⟨.space 1, .ofString "/a/x"⟩ :=
    ⟨0, ["b"], "x", [], .mount 2 ⟨"b", ⟨2, ⟨2, ["b"]⟩, ⟨.space 1, .ofString "/a"⟩⟩, .at 7, 1⟩, rfl, fun _ => rfl, rfl⟩
  have hthere : facing.Asks ⟨.space 1, .ofString "/a/x"⟩ ⟨.space 2, .ofString "/b/x"⟩ :=
    ⟨1, one, ⟨1, ["a", "x"]⟩, rfl, rfl, rfl, rfl, hfirst⟩
  have hback : facing.Asks ⟨.space 2, .ofString "/b/x"⟩ ⟨.space 1, .ofString "/a/x"⟩ :=
    ⟨2, two, ⟨2, ["b", "x"]⟩, rfl, rfl, rfl, rfl, hsecond⟩
  refine ⟨rfl, rfl, rfl, rfl, one, rfl, fun h => not_goesRound_of_returns h ?_⟩
  exact ⟨_, _, hfirst, .refl, .tail (.single hback) hthere⟩

/-- two namespaces, each shown whole in a directory of the other -/
def mirrored : World :=
  let w := (twoSpaces.mount 1 ⟨⟨.space 2, .rootPath⟩, ⟨1, ["a"]⟩⟩).2
  (w.mount 2 ⟨⟨.space 1, .rootPath⟩, ⟨2, ["b"]⟩⟩).2

end World

end MountSpace

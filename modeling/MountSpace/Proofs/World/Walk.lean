/-
Walks in parts, and the questions they ask. A step inside a mounted filesystem asks whether the next place exists; all
other steps ask nothing (`Place.asks`). What a walk comes to depends on the answers alone (`step_eq_ok`, `walk_ok_path`);
the path it was asked for shows in refusals only.
-/
import MountSpace.Proofs.Outline.Resolve

namespace MountSpace

/-! ## Questions -/

/-- an answer without its content: that there is one, or the error -/
def tell {α : Type} : Except FsError α → Except FsError Unit
  | .ok _ => .ok ()
  | .error e => .error e

theorem tell_eq_ok {α : Type} {r : Except FsError α} : tell r = .ok () ↔ ∃ a, r = .ok a := by
  cases r <;> simp [tell]

theorem tell_eq_error {α : Type} {r : Except FsError α} {e : FsError} : tell r = .error e ↔ r = .error e := by
  cases r <;> simp [tell]

/-- whether a place exists, asked of its filesystem -/
def ask (q : ExternalPath) (ext : External) : Except FsError Unit := tell ((ext q.fs).getattr q.path)

/-- the place of a name right behind a place -/
def ExternalPath.below (q : ExternalPath) (name : String) : ExternalPath := { q with path := q.path.joinName name }

theorem foldl_below (names : List String) (at_ : ExternalPath) :
    names.foldl .below at_ = ⟨at_.fs, names.foldl .joinName at_.path⟩ := by
  induction names generalizing at_ with
  | nil => rfl
  | cons name rest ih => exact ih (at_.below name)

theorem ask_eq_ok {q : ExternalPath} {ext : External} :
    ask q ext = .ok () ↔ ∃ attributes, (ext q.fs).getattr q.path = .ok attributes := tell_eq_ok

theorem ask_eq_error {q : ExternalPath} {ext : External} {e : FsError} :
    ask q ext = .error e ↔ (ext q.fs).getattr q.path = .error e := tell_eq_error

/-- the question that the step from a place to a name asks, if it asks one -/
def Place.asks (name : String) : Place → Option ExternalPath
  | directory _ _ => none
  | mount _ m => (m.record.source.path.containedJoin name).map fun path => { m.record.source with path }
  | real _ at_ => some { at_ with path := at_.path.joinName name }

/-- from a place outside, a step to a valid name asks for the place right behind -/
theorem Place.asks_of_external {place : Place} {at_ : ExternalPath} (h : place.external? = some at_) {name : String}
    (hname : nameFault? name = none) : place.asks name = some (at_.below name) := by
  rcases place with ⟨id, dir⟩ | ⟨id, m⟩ | ⟨nm, there⟩
  · cases h
  · cases h
    rw [Place.asks, FsPath.containedJoin_of_name _ hname]
    rfl
  · cases h
    rfl

namespace Tree

theorem step_of_asks_none (t : Tree) (path : AbsolutePath) (walked : List String) {name : String} {place : Place}
    (h : place.asks name = none) (ext ext' : External) :
    t.step ext path walked name place = t.step ext' path walked name place := by
  rcases place with ⟨id, dir⟩ | ⟨id, m⟩ | ⟨nm, at_⟩
  · rfl
  · rw [Place.asks, Option.map_eq_none_iff] at h
    simp only [Tree.step, h]
  · cases h

theorem step_of_asks_some (t : Tree) (path : AbsolutePath) (walked : List String) {name : String} {place : Place}
    {q : ExternalPath} (h : place.asks name = some q) (ext : External) :
    t.step ext path walked name place = descend ext path walked name q := by
  rcases place with ⟨id, dir⟩ | ⟨id, m⟩ | ⟨nm, at_⟩
  · cases h
  · rw [Place.asks, Option.map_eq_some_iff] at h
    obtain ⟨candidate, hc, rfl⟩ := h
    simp only [Tree.step, hc]
  · cases h
    rfl

/-- what a step makes of the answer to its question -/
def descendTold (path : AbsolutePath) (walked : List String) (name : String) (q : ExternalPath) :
    Except FsError Unit → Except FsError Place
  | .ok _ => .ok (.real name q)
  | .error e => .error (Outline.refusal path (walked ++ [name]) e)

theorem step_eq_told (t : Tree) (path : AbsolutePath) (walked : List String) {name : String} {place : Place}
    {q : ExternalPath} (h : place.asks name = some q) (ext : External) :
    t.step ext path walked name place = descendTold path walked name q (ask q ext) := by
  rw [step_of_asks_some t path walked h, descend_eq, ask]
  cases (ext q.fs).getattr q.path <;> rfl

/-- what a step can come to: a child in the tree, or the place it has asked for and been told of -/
theorem step_eq_ok {t : Tree} {ext : External} {path : AbsolutePath} {walked : List String} {name : String}
    {place next : Place} : t.step ext path walked name place = .ok next ↔
      (∃ id dir child node, place = .directory id dir ∧ t.child? id name = some (child, node) ∧
        next = .ofNode child node) ∨
      ∃ q, place.asks name = some q ∧ ask q ext = .ok () ∧ next = .real name q := by
  cases ha : place.asks name with
  | some q =>
    rw [step_eq_told t path walked ha]
    cases hq : ask q ext with
    | ok _ =>
      constructor
      · intro h
        cases h
        exact .inr ⟨q, rfl, hq, rfl⟩
      · rintro (⟨id, dir, child, node, rfl, -⟩ | ⟨q', hq', -, rfl⟩)
        · cases ha
        · cases hq'
          rfl
    | error e =>
      constructor
      · intro h
        cases h
      · rintro (⟨id, dir, child, node, rfl, -⟩ | ⟨q', hq', hok, -⟩)
        · cases ha
        · cases hq'
          rw [hq] at hok
          cases hok
  | none =>
    rcases place with ⟨id, dir⟩ | ⟨id, m⟩ | ⟨nm, at_⟩
    · simp only [Tree.step]
      cases hc : t.child? id name with
      | none => simp [hc]
      | some c =>
        obtain ⟨child, node⟩ := c
        simp [hc, eq_comm]
    · rw [Place.asks, Option.map_eq_none_iff] at ha
      simp [Tree.step, ha]
    · cases ha

/-! ## Parts -/

theorem walk_cons_eq_ok {t : Tree} {ext : External} {path : AbsolutePath} {walked : List String} {name : String}
    {rest : List String} {place p : Place} : t.walk ext path walked place (name :: rest) = .ok p ↔
      ∃ next, t.step ext path walked name place = .ok next ∧ t.walk ext path (walked ++ [name]) next rest = .ok p := by
  rw [Tree.walk]
  cases t.step ext path walked name place with
  | error e => simp
  | ok next => simp

theorem walk_append (t : Tree) (ext : External) (path : AbsolutePath) (before rest walked : List String)
    (place : Place) : t.walk ext path walked place (before ++ rest) =
      match t.walk ext path walked place before with
      | .error e => .error e
      | .ok p => t.walk ext path (walked ++ before) p rest := by
  induction before generalizing walked place with
  | nil => simp [Tree.walk]
  | cons name before ih =>
    rw [List.cons_append, Tree.walk, Tree.walk]
    cases t.step ext path walked name place with
    | error e => rfl
    | ok next => simp only [ih, List.append_assoc, List.singleton_append]

theorem walk_append_eq_ok {t : Tree} {ext : External} {path : AbsolutePath} {before rest walked : List String}
    {place p : Place} : t.walk ext path walked place (before ++ rest) = .ok p ↔
      ∃ q, t.walk ext path walked place before = .ok q ∧ t.walk ext path (walked ++ before) q rest = .ok p := by
  rw [walk_append]
  cases t.walk ext path walked place before with
  | error e => simp
  | ok q => simp

/-- the end of a walk does not depend on how its path is named in refusals -/
theorem walk_ok_path {t : Tree} {ext : External} {path : AbsolutePath} {names walked : List String} {place p : Place}
    (h : t.walk ext path walked place names = .ok p) (path' : AbsolutePath) (walked' : List String) :
    t.walk ext path' walked' place names = .ok p := by
  induction names generalizing walked walked' place with
  | nil => exact h
  | cons name rest ih =>
    obtain ⟨next, hs, hw⟩ := walk_cons_eq_ok.1 h
    exact walk_cons_eq_ok.2 ⟨next, step_eq_ok.2 (step_eq_ok.1 hs), ih hw (walked' ++ [name])⟩

/-! ## Ends -/

/-- a walk that ends outside has just been told that its end exists -/
theorem ask_of_walk_real {t : Tree} {ext : External} {path : AbsolutePath} {names walked : List String} {place : Place}
    {name : String} {at_ : ExternalPath} (h : t.walk ext path walked place names = .ok (.real name at_)) :
    place = .real name at_ ∨ ask at_ ext = .ok () := by
  induction names generalizing walked place with
  | nil => exact .inl (Except.ok.inj h)
  | cons nm rest ih =>
    obtain ⟨next, hs, hw⟩ := walk_cons_eq_ok.1 h
    rcases ih hw with rfl | hask
    · rcases step_eq_ok.1 hs with ⟨id, dir, child, node, -, -, hnext⟩ | ⟨q, -, hq, hnext⟩
      · cases node <;> cases hnext
      · cases hnext
        exact .inr hq
    · exact .inr hask

/-- a mount that a walk ends at is a vertex of the tree -/
theorem node?_of_walk_mount {t : Tree} {ext : External} {path : AbsolutePath} {names walked : List String}
    {place : Place} (hplace : ∀ id m, place = .mount id m → t.node? id = some (.mount m)) {id : NodeId} {m : MountNode}
    (h : t.walk ext path walked place names = .ok (.mount id m)) : t.node? id = some (.mount m) := by
  induction names generalizing walked place with
  | nil => exact hplace id m (Except.ok.inj h)
  | cons nm rest ih =>
    obtain ⟨next, hs, hw⟩ := walk_cons_eq_ok.1 h
    refine ih (fun cid cm hnext => ?_) hw
    rcases step_eq_ok.1 hs with ⟨pid, dir, child, node, -, hc, rfl⟩ | ⟨q, -, -, rfl⟩
    · obtain ⟨k, -, hk⟩ := Option.bind_eq_some_iff.1 hc
      obtain ⟨n, hn, hkn⟩ := Option.map_eq_some_iff.1 hk
      cases hkn
      cases node with
      | directory d => cases hnext
      | mount m' =>
        cases hnext
        exact hn
    · cases hnext

/-- from a place outside, valid names lead to the places behind one another -/
theorem walk_external {t : Tree} {ext : External} {path : AbsolutePath} {names walked : List String} {place p : Place}
    {at_ : ExternalPath} (hplace : place.external? = some at_) (hvalid : ∀ n ∈ names, nameFault? n = none)
    (h : t.walk ext path walked place names = .ok p) : p.external? = some (names.foldl .below at_) := by
  induction names generalizing walked place at_ with
  | nil =>
    cases h
    exact hplace
  | cons name rest ih =>
    obtain ⟨next, hs, hw⟩ := walk_cons_eq_ok.1 h
    have hasks := Place.asks_of_external hplace (hvalid name List.mem_cons_self)
    refine ih ?_ (fun n hn => hvalid n (List.mem_cons_of_mem _ hn)) hw
    rcases step_eq_ok.1 hs with ⟨id, dir, child, node, rfl, -⟩ | ⟨q, hq, -, rfl⟩
    · cases hplace
    · rw [hasks] at hq
      cases hq
      rfl

/-- the last step outside: the question it asks, and what it makes of the answer -/
theorem walk_external_last {t : Tree} {ext : External} {path : AbsolutePath} {before walked : List String}
    {name : String} {place p : Place} {at_ : ExternalPath} (hplace : place.external? = some at_)
    (hvalid : ∀ n ∈ before ++ [name], nameFault? n = none) (h : t.walk ext path walked place before = .ok p) :
    t.walk ext path walked place (before ++ [name]) =
      descendTold path (walked ++ before) name ((before ++ [name]).foldl .below at_)
        (ask ((before ++ [name]).foldl .below at_) ext) := by
  have hend := walk_external hplace (fun n hn => hvalid n (List.mem_append_left _ hn)) h
  have hasks := Place.asks_of_external hend (hvalid name (by simp))
  rw [walk_append, h]
  simp only [Tree.walk, step_eq_told t path _ hasks, List.foldl_append, List.foldl_cons, List.foldl_nil]
  cases descendTold path (walked ++ before) name ((before.foldl .below at_).below name) _ <;> rfl

theorem walk_external_ok {t : Tree} {ext : External} {path : AbsolutePath} {before walked : List String} {name : String}
    {place p : Place} {at_ : ExternalPath} (hplace : place.external? = some at_)
    (hvalid : ∀ n ∈ before ++ [name], nameFault? n = none)
    (h : t.walk ext path walked place (before ++ [name]) = .ok p) :
    p = .real name ((before ++ [name]).foldl .below at_) := by
  obtain ⟨q, hq, -⟩ := walk_append_eq_ok.1 h
  rw [walk_external_last hplace hvalid hq] at h
  cases ha : ask ((before ++ [name]).foldl .below at_) ext with
  | error e =>
    rw [ha] at h
    cases h
  | ok _ =>
    rw [ha] at h
    cases h
    rfl

end Tree

end MountSpace

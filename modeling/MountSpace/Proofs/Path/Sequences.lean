/-
Paths made by calls in sequence. A call reads a path from a text or from names, or makes one of paths that earlier calls
have given; texts, names and namespaces are arbitrary. Only the readers and the joins look at names. Parents, resolved
and relative paths are cut from the names in hand, so what carries the induction is that every path in hand has been made
by operations on paths (`Sequence.made`).

Main result: `paths_stay_valid`. Every path that a sequence gives holds accepted names only, a relative one has at least
one, and what is shown of it is read as it in its namespace; and no call of a sequence mixes namespaces.
-/
import MountSpace.Proofs.Path.Relative

namespace MountSpace

/-- one call on paths -/
inductive PathCall where
  | root (owner : NamespaceId)
  | parse (owner : NamespaceId) (text : String)
  | parseAbsolute (owner : NamespaceId) (text : String)
  | parseRelative (owner : NamespaceId) (text : String)
  | ofNames (owner : NamespaceId) (names : List String)
  | relativeOfNames (owner : NamespaceId) (names : List String)
  | parent (p : AbsolutePath)
  | join (p : AbsolutePath) (name : String)
  | joinRelative (p : RelativePath) (name : String)
  | resolve (p : AbsolutePath) (other : NamespacePath)
  | resolveRelative (p : AbsolutePath) (rel : RelativePath)
  | relativize (p target : AbsolutePath)
  deriving DecidableEq, Repr

namespace PathCall

/-- what a call answers: a path, a refusal, or no path for the parent of a root -/
def answer : PathCall → Except FsError (Option NamespacePath)
  | root owner => .ok (some (.absolute (.root owner)))
  | parse owner text => (NamespacePath.parse owner text).map some
  | parseAbsolute owner text => (AbsolutePath.parse owner text).map fun p => some (.absolute p)
  | parseRelative owner text => (RelativePath.parse owner text).map fun p => some (.relative p)
  | ofNames owner names => (AbsolutePath.ofNames owner names).map fun p => some (.absolute p)
  | relativeOfNames owner names => (RelativePath.ofNames owner names).map fun p => some (.relative p)
  | parent p => .ok (p.parent?.map .absolute)
  | join p name => (p.join name).map fun p => some (.absolute p)
  | joinRelative p name => (p.join name).map fun p => some (.relative p)
  | resolve p other => (p.resolve other).map fun p => some (.absolute p)
  | resolveRelative p rel => (p.resolveRelative rel).map fun p => some (.absolute p)
  | relativize p target => (p.relativize target).map fun p => some (.relative p)

/-- the path a call gives -/
def given? (call : PathCall) : Option NamespacePath := call.answer.toOption.join

/-- the paths a call is asked of -/
def operands : PathCall → List NamespacePath
  | parent p | join p _ => [.absolute p]
  | joinRelative p _ => [.relative p]
  | resolve p other => [.absolute p, other]
  | resolveRelative p rel => [.absolute p, .relative rel]
  | relativize p target => [.absolute p, .absolute target]
  | _ => []

/-- the namespaces a call is asked in -/
def owners : PathCall → List NamespaceId
  | root owner | parse owner _ | parseAbsolute owner _ | parseRelative owner _ | ofNames owner _
  | relativeOfNames owner _ => [owner]
  | call => call.operands.map NamespacePath.owner

/-- a call gives paths of the namespace it is asked in and is refused for paths of two, and for nothing else with such an
error -/
structure KeepsApart (call : PathCall) : Prop where
  own : ∀ p, call.given? = some p → ∀ owner ∈ call.owners, p.owner = owner
  foreign : ∀ p q, call.operands = [p, q] → q.owner ≠ p.owner → call.answer = .error (crossing q.owner p.owner)
  familiar : ∀ what, call.answer = .error (.crossNamespace what) → ∃ p q, call.operands = [p, q] ∧ q.owner ≠ p.owner

end PathCall

/-- the paths that calls give, in order -/
def givenBy (calls : List PathCall) : List NamespacePath := calls.filterMap PathCall.given?

/-- calls one after the other, each asked of paths that earlier ones have given -/
inductive Sequence : List PathCall → Prop where
  | start : Sequence []
  | next {calls : List PathCall} {call : PathCall} (before : Sequence calls)
      (held : ∀ p ∈ call.operands, p ∈ givenBy calls) : Sequence (calls ++ [call])

/-! ## One call -/

namespace PathCall

theorem given?_eq_some {call : PathCall} {p : NamespacePath} : call.given? = some p ↔ call.answer = .ok (some p) := by
  rw [given?]
  rcases call.answer with e | _ | q <;> simp [Except.toOption]

/-- what a call gives for paths that operations on paths have made, such operations make -/
theorem given_made {call : PathCall} (held : ∀ p ∈ call.operands, Made p) {p : NamespacePath}
    (h : call.given? = some p) : Made p := by
  rw [given?_eq_some] at h
  cases call with
  | root owner =>
    cases h
    exact .root owner
  | parse owner text =>
    obtain ⟨q, hq, ⟨⟩⟩ := map_eq_ok.1 h
    exact .parse hq
  | parseAbsolute owner text =>
    obtain ⟨q, hq, ⟨⟩⟩ := map_eq_ok.1 h
    exact .parseAbsolute hq
  | parseRelative owner text =>
    obtain ⟨q, hq, ⟨⟩⟩ := map_eq_ok.1 h
    exact .parseRelative hq
  | ofNames owner names =>
    obtain ⟨q, hq, ⟨⟩⟩ := map_eq_ok.1 h
    exact .ofNames hq
  | relativeOfNames owner names =>
    obtain ⟨q, hq, ⟨⟩⟩ := map_eq_ok.1 h
    exact .relativeOfNames hq
  | parent p =>
    obtain ⟨above, habove, rfl⟩ := Option.map_eq_some_iff.1 (Except.ok.inj h)
    exact .parent (held _ (by simp [operands])) habove
  | join p name =>
    obtain ⟨q, hq, ⟨⟩⟩ := map_eq_ok.1 h
    exact .join (held _ (by simp [operands])) hq
  | joinRelative p name =>
    obtain ⟨q, hq, ⟨⟩⟩ := map_eq_ok.1 h
    exact .joinRelative (held _ (by simp [operands])) hq
  | resolve p other =>
    obtain ⟨q, hq, ⟨⟩⟩ := map_eq_ok.1 h
    exact .resolve (held (.absolute p) (by simp [operands])) (held other (by simp [operands])) hq
  | resolveRelative p rel =>
    obtain ⟨q, hq, ⟨⟩⟩ := map_eq_ok.1 h
    exact .resolveRelative (held (.absolute p) (by simp [operands])) (held (.relative rel) (by simp [operands])) hq
  | relativize p target =>
    obtain ⟨q, hq, ⟨⟩⟩ := map_eq_ok.1 h
    exact .relativize (held (.absolute p) (by simp [operands])) (held (.absolute target) (by simp [operands])) hq

/-- an answer in one namespace: a path of it, no path, or the refusal of an invalid path -/
inductive AnswersIn (owner : NamespaceId) : Except FsError (Option NamespacePath) → Prop where
  | path {p : NamespacePath} (own : p.owner = owner) : AnswersIn owner (.ok (some p))
  | nothing : AnswersIn owner (.ok none)
  | invalid (what : String) : AnswersIn owner (.error (.invalidPath what))

theorem answersIn_map {α : Type} {owner : NamespaceId} {result : Except FsError α} {kind : α → NamespacePath}
    (own : ∀ a, result = .ok a → (kind a).owner = owner)
    (refuses : ∀ e, result = .error e → ∃ what, e = .invalidPath what) :
    AnswersIn owner (result.map fun a => some (kind a)) := by
  cases result with
  | ok a => exact .path (own a rfl)
  | error e =>
    obtain ⟨what, rfl⟩ := refuses e rfl
    exact .invalid what

/-- how a call is answered: in the one namespace it is asked in, or by a refusal for two -/
inductive Answered (call : PathCall) : Prop where
  | inside {owner : NamespaceId} (asked : ∀ o ∈ call.owners, o = owner) (answers : AnswersIn owner call.answer)
  | between {p q : NamespacePath} (asked : call.operands = [p, q]) (foreign : q.owner ≠ p.owner)
      (refused : call.answer = .error (crossing q.owner p.owner))

theorem Answered.alone {call : PathCall} {owner : NamespaceId} (asked : call.owners = [owner])
    (answers : AnswersIn owner call.answer) : Answered call := by
  refine .inside ?_ answers
  intro o ho
  rw [asked] at ho
  exact List.mem_singleton.1 ho

theorem Answered.pair {call : PathCall} {p q : NamespacePath} (asked : call.operands = [p, q])
    (owners : call.owners = [p.owner, q.owner]) (own : q.owner = p.owner → AnswersIn p.owner call.answer)
    (foreign : q.owner ≠ p.owner → call.answer = .error (crossing q.owner p.owner)) : Answered call := by
  by_cases hown : q.owner = p.owner
  · refine .inside ?_ (own hown)
    intro o ho
    rw [owners, hown] at ho
    simpa using ho
  · exact .between asked hown (foreign hown)

theorem answered (call : PathCall) : Answered call := by
  cases call with
  | root owner => exact .alone rfl (.path rfl)
  | parse owner text =>
    apply Answered.alone rfl
    apply answersIn_map
    · intro p h
      cases ((reads_either owner).exact text p).1 h <;> rfl
    · exact (reads_either owner).refuses text
  | parseAbsolute owner text =>
    apply Answered.alone rfl
    apply answersIn_map
    · intro p h
      exact (((reads_absolute owner).exact text p).1 h).1
    · exact (reads_absolute owner).refuses text
  | parseRelative owner text =>
    apply Answered.alone rfl
    apply answersIn_map
    · intro p h
      exact (((reads_relative owner).exact text p).1 h).1
    · exact (reads_relative owner).refuses text
  | ofNames owner names =>
    apply Answered.alone rfl
    apply answersIn_map
    · intro p h
      rw [(AbsolutePath.ofNames_eq_ok.1 h).1]
      rfl
    · exact fun e => AbsolutePath.ofNames_eq_error
  | relativeOfNames owner names =>
    apply Answered.alone rfl
    apply answersIn_map
    · intro p h
      rw [(RelativePath.ofNames_eq_ok.1 h).1]
      rfl
    · exact fun e => RelativePath.ofNames_eq_error
  | parent p =>
    apply Answered.alone rfl
    rw [answer, AbsolutePath.parent?]
    split
    · exact .nothing
    · exact .path rfl
  | join p name =>
    apply Answered.alone rfl
    apply answersIn_map
    · intro longer h
      obtain ⟨-, -, rfl⟩ := map_eq_ok.1 (AbsolutePath.join_eq.symm.trans h)
      rfl
    · intro e h
      exact checkName_eq_error (map_eq_error.1 (AbsolutePath.join_eq.symm.trans h))
  | joinRelative p name =>
    apply Answered.alone rfl
    apply answersIn_map
    · intro longer h
      obtain ⟨-, -, rfl⟩ := map_eq_ok.1 (RelativePath.join_eq.symm.trans h)
      rfl
    · intro e h
      exact checkName_eq_error (map_eq_error.1 (RelativePath.join_eq.symm.trans h))
  | resolve p other =>
    apply Answered.pair rfl rfl
    · intro hown
      obtain ⟨there, hthere, howner⟩ := AbsolutePath.resolve_own hown
      rw [answer, hthere]
      exact .path howner
    · intro hforeign
      rw [answer, AbsolutePath.resolve_foreign hforeign]
      rfl
  | resolveRelative p rel =>
    apply Answered.pair rfl rfl
    · intro hown
      rw [answer, AbsolutePath.resolveRelative_own hown]
      exact .path rfl
    · intro hforeign
      rw [answer, AbsolutePath.resolveRelative_foreign hforeign]
      rfl
  | relativize p target =>
    apply Answered.pair rfl rfl
    · intro hown
      apply answersIn_map
      · intro rel h
        rw [((AbsolutePath.relativize_eq_ok hown).1 h).2.2]
        rfl
      · exact fun e => AbsolutePath.relativize_eq_error hown
    · intro hforeign
      rw [answer, AbsolutePath.relativize_foreign hforeign]
      rfl

theorem owners_of_operands {call : PathCall} {p q : NamespacePath} (h : call.operands = [p, q]) :
    call.owners = [p.owner, q.owner] := by
  cases call <;> cases h <;> rfl

theorem keepsApart (call : PathCall) : call.KeepsApart := by
  cases answered call with
  | @inside owner asked answers =>
    refine ⟨?_, ?_, ?_⟩
    · intro p h o ho
      rw [given?_eq_some.1 h] at answers
      cases answers with
      | path own => exact own.trans (asked o ho).symm
    · intro p q h hforeign
      rw [owners_of_operands h] at asked
      have hp : p.owner = owner := asked _ (by simp)
      have hq : q.owner = owner := asked _ (by simp)
      exact absurd (hq.trans hp.symm) hforeign
    · intro what h
      rw [h] at answers
      cases answers
  | @between p q asked foreign refused =>
    refine ⟨?_, ?_, ?_⟩
    · intro there h
      rw [given?_eq_some, refused] at h
      cases h
    · intro p' q' h _
      rw [h] at asked
      cases asked
      exact refused
    · exact fun _ _ => ⟨p, q, asked, foreign⟩

end PathCall

/-! ## Calls in sequence -/

theorem givenBy_concat (calls : List PathCall) (call : PathCall) :
    givenBy (calls ++ [call]) = givenBy calls ++ call.given?.toList := by
  rw [givenBy, List.filterMap_append]
  cases h : call.given? <;> simp [givenBy, h]

/-- every path that a sequence gives has been made by operations on paths -/
theorem Sequence.made {calls : List PathCall} (h : Sequence calls) : ∀ p ∈ givenBy calls, Made p := by
  induction h with
  | start =>
    intro p hp
    cases hp
  | next before held ih =>
    intro p hp
    rw [givenBy_concat, List.mem_append, Option.mem_toList] at hp
    rcases hp with hp | hp
    · exact ih p hp
    · apply PathCall.given_made _ hp
      intro q hq
      exact ih q (held q hq)

/-- **Path values stay valid.** Whatever a sequence of calls on paths gives is a path as it should be, and no call of
the sequence mixes namespaces. -/
theorem paths_stay_valid {calls : List PathCall} (h : Sequence calls) :
    (∀ p ∈ givenBy calls, p.Valid) ∧ ∀ call ∈ calls, call.KeepsApart := by
  constructor
  · intro p hp
    exact (h.made p hp).valid
  · intro call _
    exact call.keepsApart

/-- paths of one namespace read, put together and taken apart, and one more that another namespace refuses -/
def excursion : List PathCall :=
  [.parseAbsolute 1 "/A/b", .parseRelative 1 "c/D", .resolveRelative ⟨1, ["A", "b"]⟩ ⟨1, ["c", "D"]⟩,
    .parent ⟨1, ["A", "b", "c", "D"]⟩, .relativize ⟨1, ["A", "b"]⟩ ⟨1, ["A", "b", "c"]⟩, .root 2,
    .resolve (.root 2) (.relative ⟨1, ["c"]⟩)]

theorem excursion_valid : Sequence excursion ∧
    givenBy excursion = [.absolute ⟨1, ["A", "b"]⟩, .relative ⟨1, ["c", "D"]⟩, .absolute ⟨1, ["A", "b", "c", "D"]⟩,
      .absolute ⟨1, ["A", "b", "c"]⟩, .relative ⟨1, ["c"]⟩, .absolute (.root 2)] ∧
    (∀ p ∈ givenBy excursion, p.Valid) ∧ ∀ call ∈ excursion, call.KeepsApart := by
  have read : Sequence (excursion.take 2) := .next (.next .start (by decide)) (by decide)
  have below : Sequence (excursion.take 4) := .next (.next read (by decide)) (by decide)
  have whole : Sequence excursion := .next (.next (.next below (by decide)) (by decide)) (by decide)
  exact ⟨whole, by decide, paths_stay_valid whole⟩

end MountSpace

/-
Questions that cross from namespace to namespace. One crossing (`cross`) lets every namespace answer for itself and hand
on what it asks to whatever lies beyond; `deep n` is n crossings. What an operation gives when so many crossings are
enough, whatever lies beyond, it gives for good (`Gives`, `Gives.mono`, `Gives.unique`).

There is nothing in between (`ask_settled_or_stuck`, `walk_settled_or_stuck`): at each depth a question either has an
answer in which what lies beyond has no say, or it reaches the end of the crossings and comes back with whatever the
silence there says.
-/
import MountSpace.Proofs.World.Walk
import MountSpace.World.Basic

namespace MountSpace

namespace World

/-- each namespace answers for itself and asks `beyond` -/
def cross (w : World) (beyond : External) : External
  | .volume n => w.volumeAnswers n
  | .space id =>
    match w.namespace? id with
    | some ns => ns.filesystem beyond
    | none => failing (.other "no such namespace")

/-- so many crossings, and `beyond` after them -/
def deep (w : World) : Nat → External → External
  | 0, beyond => beyond
  | n + 1, beyond => w.cross (w.deep n beyond)

theorem answers_eq_deep (w : World) (n : Nat) : w.answers n = w.deep n (w.answers 0) := by
  induction n with
  | zero => rfl
  | succ n ih =>
    funext fs
    rw [deep, ← ih]
    cases fs <;> rfl

theorem deep_cross (w : World) (n : Nat) (beyond : External) : w.deep n (w.cross beyond) = w.deep (n + 1) beyond := by
  induction n with
  | zero => rfl
  | succ n ih => rw [deep, ih]; rfl

/-- with so many crossings the operation has this result, whatever lies beyond -/
def Gives {α : Type} (w : World) (n : Nat) (f : External → α) (r : α) : Prop := ∀ beyond, f (w.deep n beyond) = r

/-- nothing but one error everywhere -/
def silence (word : String) : External := fun _ => failing (.other word)

/-- with so many crossings the operation comes to their end, and fails with the word spoken there -/
def Stuck {α : Type} (w : World) (n : Nat) (f : External → Except FsError α) : Prop :=
  ∀ word, f (w.deep n (silence word)) = .error (.other word)

section Gives

variable {α : Type} {w : World} {m n : Nat} {f : External → α} {r r' : α}

theorem Gives.mono (h : w.Gives m f r) (hle : m ≤ n) : w.Gives n f r := by
  induction hle with
  | refl => exact h
  | step _ ih =>
    intro beyond
    rw [← deep_cross]
    exact ih _

theorem Gives.unique (h : w.Gives m f r) (h' : w.Gives n f r') : r = r' := by
  have h1 := h.mono (Nat.le_max_left m n) (silence "")
  have h2 := h'.mono (Nat.le_max_right m n) (silence "")
  exact h1.symm.trans h2

theorem Gives.not_stuck {f : External → Except FsError α} {r : Except FsError α} (h : w.Gives n f r) :
    ¬ w.Stuck n f := by
  intro hs
  have h1 := (h _).symm.trans (hs "a")
  have h2 := (h _).symm.trans (hs "b")
  rw [h1, Except.error.injEq, FsError.other.injEq] at h2
  exact absurd h2 (by decide)

end Gives

/-! ## Settled or stuck -/

section Settled

variable {w : World} {n : Nat}

/-- a walk asks one question after the other -/
theorem walk_settled_or_stuck (hq : ∀ q, (∃ r, w.Gives n (ask q) r) ∨ w.Stuck n (ask q)) (t : Tree)
    (path : AbsolutePath) (names walked : List String) (place : Place) :
    (∃ r, w.Gives n (fun ext => t.walk ext path walked place names) r) ∨
      w.Stuck n fun ext => t.walk ext path walked place names := by
  induction names generalizing walked place with
  | nil => exact .inl ⟨.ok place, fun _ => rfl⟩
  | cons name rest ih =>
    -- once the step is settled, so is what comes after it or it is stuck later
    have go : ∀ r, w.Gives n (fun ext => t.step ext path walked name place) r →
        (∃ r, w.Gives n (fun ext => t.walk ext path walked place (name :: rest)) r) ∨
          w.Stuck n fun ext => t.walk ext path walked place (name :: rest) := by
      intro r hr
      cases r with
      | error e =>
        refine .inl ⟨.error e, fun beyond => ?_⟩
        have hb := hr beyond
        simp only at hb
        simp only [Tree.walk, hb]
      | ok next =>
        rcases ih (walked ++ [name]) next with ⟨r, hw⟩ | hw
        · refine .inl ⟨r, fun beyond => ?_⟩
          have hb := hr beyond
          simp only at hb
          simp only [Tree.walk, hb]
          exact hw beyond
        · refine .inr fun word => ?_
          have hb := hr (silence word)
          simp only at hb
          simp only [Tree.walk, hb]
          exact hw word
    cases ha : place.asks name with
    | none =>
      refine go (t.step (silence "") path walked name place) fun beyond => ?_
      exact Tree.step_of_asks_none t path walked ha ..
    | some q =>
      rcases hq q with ⟨r, hr⟩ | hs
      · refine go (Tree.descendTold path walked name q r) fun beyond => ?_
        have hb := hr beyond
        simp only [Tree.step_eq_told t path walked ha, hb]
      · refine .inr fun word => ?_
        have hb := hs word
        simp only [Tree.walk, Tree.step_eq_told t path walked ha, hb]
        rfl

theorem resolve_settled_or_stuck (hq : ∀ q, (∃ r, w.Gives n (ask q) r) ∨ w.Stuck n (ask q)) (t : Tree)
    (path : AbsolutePath) : (∃ r, w.Gives n (fun ext => t.resolve ext path) r) ∨
      w.Stuck n fun ext => t.resolve ext path := by
  unfold Tree.resolve
  cases t.node? t.root with
  | none => exact .inl ⟨_, fun _ => rfl⟩
  | some node => exact walk_settled_or_stuck hq t path path.names [] (.ofNode t.root node)

end Settled

/-- what the end of a path makes of a question -/
def tellPlace (ext : External) : Except FsError Place → Except FsError Unit
  | .error e => .error e
  | .ok (.real _ at_) => ask at_ ext
  | .ok _ => .ok ()

/-- a question to a namespace is a walk in its tree -/
theorem ask_space (w : World) (id : NamespaceId) (path : FsPath) (beyond : External) :
    ask ⟨.space id, path⟩ (w.cross beyond) =
      match w.namespace? id with
      | none => .error (.other "no such namespace")
      | some ns =>
        match ns.ofFsPath path with
        | .error e => .error e
        | .ok path =>
          match ns.check path with
          | .error e => .error e
          | .ok _ => tellPlace beyond (ns.tree.resolve beyond path) := by
  rw [ask]
  simp only [cross]
  cases w.namespace? id with
  | none => rfl
  | some ns =>
    simp only [Namespace.filesystem, Namespace.readAttributes, Namespace.place]
    cases ns.ofFsPath path with
    | error e => rfl
    | ok path =>
      simp only
      cases ns.check path with
      | error e => rfl
      | ok _ =>
        simp only
        cases ns.tree.resolve beyond path with
        | error e => rfl
        | ok place => cases place <;> rfl

/-- **At each depth a question is settled or stuck.** -/
theorem ask_settled_or_stuck (w : World) (n : Nat) (q : ExternalPath) :
    (∃ r, w.Gives n (ask q) r) ∨ w.Stuck n (ask q) := by
  induction n generalizing q with
  | zero => exact .inr fun word => rfl
  | succ n ih =>
    obtain ⟨fs, path⟩ := q
    cases fs with
    | volume k => exact .inl ⟨tell ((w.volumeAnswers k).getattr path), fun beyond => rfl⟩
    | space id =>
      simp only [Gives, Stuck, deep, ask_space]
      cases w.namespace? id with
      | none => exact .inl ⟨_, fun _ => rfl⟩
      | some ns =>
        simp only
        cases ns.ofFsPath path with
        | error e => exact .inl ⟨_, fun _ => rfl⟩
        | ok path =>
          simp only
          cases ns.check path with
          | error e => exact .inl ⟨_, fun _ => rfl⟩
          | ok _ =>
            simp only
            rcases resolve_settled_or_stuck ih ns.tree path with ⟨r, hr⟩ | hs
            · have hr : ∀ beyond, ns.tree.resolve (w.deep n beyond) path = r := hr
              simp only [hr]
              rcases r with e | ⟨pid, dir⟩ | ⟨pid, m⟩ | ⟨name, at_⟩
              · exact .inl ⟨_, fun _ => rfl⟩
              · exact .inl ⟨_, fun _ => rfl⟩
              · exact .inl ⟨_, fun _ => rfl⟩
              · exact ih at_
            · have hs : ∀ word, ns.tree.resolve (w.deep n (silence word)) path = .error (.other word) := hs
              exact .inr fun word => by rw [hs word]; rfl

end World

end MountSpace

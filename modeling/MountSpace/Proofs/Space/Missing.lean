/-
What is missing on a path. A look-up stops at the first name that leads nowhere, in the tree, at a mount or behind one,
and what it says of an absence are the names up to that one in the spelling of the path. So the error of a path names the
shortest path above it that does not exist, and every path with this beginning is answered in the same words
(`first_missing_named`).

Mounted filesystems report an absence in four ways and anything else in many more. All four become this one error; a step
out of a filesystem becomes a refusal, and other errors are handed on as they are (`refusal_ofLookup`).
-/
import MountSpace.Proofs.Space.Readings
import MountSpace.Proofs.Space.Refusals

namespace MountSpace

/-- the path of the first so many names -/
def AbsolutePath.upTo (path : AbsolutePath) (k : Nat) : AbsolutePath := ⟨path.owner, path.names.take k⟩

/-- an error as a look-up gives it: an absence is told in one way only, and a way out of a filesystem not at all -/
structure FsError.OfLookup (e : FsError) : Prop where
  notDirectory : ∀ what, e ≠ .notADirectory what
  notSystem : ∀ told, e = .system told → told.kind ≠ .notFound ∧ told.kind ≠ .notADirectory
  notEscape : ∀ what, e ≠ .escapesRoot what

namespace Tree

/-- a tree that calls on it or events in its namespace have come to -/
inductive Reached : Tree → Prop where
  | calls (root : Directory) (calls : List Call) (proper : ∀ call ∈ calls, call.Proper) :
      Reached ((withRoot root).runCalls calls)
  | events (id : NamespaceId) (settings : Settings) (now : Time) (events : List Event) :
      Reached ((Namespace.new id settings now).run events).tree

/-- what a look-up tells of the paths above its path -/
structure TellsMissing (t : Tree) (ext : External) (path : AbsolutePath) : Prop where
  /-- above a path that leads somewhere all paths do -/
  above : ∀ place, t.resolve ext path = .ok place → ∀ k, ∃ place, t.resolve ext (path.upTo k) = .ok place
  /-- an absence is named by the first names that lead nowhere, and all paths that begin with them are answered alike -/
  missing : ∀ text, t.resolve ext path = .error (.notFound text) → ∃ k ≤ path.names.length,
    text = (path.upTo k).text ∧ (∀ j < k, ∃ place, t.resolve ext (path.upTo j) = .ok place) ∧
      ∀ longer : AbsolutePath, path.names.take k <+: longer.names → t.resolve ext longer = .error (.notFound text)
  told : ∀ e, t.resolve ext path = .error e → e.OfLookup
  /-- a path that may be missing is missing exactly if it is not found, and else as it is -/
  orMissing : (t.resolveOrMissing ext path = .ok none ↔ ∃ what, t.resolve ext path = .error (.notFound what)) ∧
    (∀ place, t.resolveOrMissing ext path = .ok (some place) ↔ t.resolve ext path = .ok place) ∧
    ∀ e, t.resolveOrMissing ext path = .error e ↔ t.resolve ext path = .error e ∧ ∀ what, e ≠ .notFound what

end Tree

/-! ## Refusals -/

/-- an absence is told by the names walked, whatever the path is called -/
theorem refusal_notFound {path : AbsolutePath} {walked : List String} {told : FsError} {text : String}
    (h : Outline.refusal path walked told = .notFound text) :
    text = "/" ++ joinNames walked ∧ ∀ path', Outline.refusal path' walked told = .notFound text := by
  unfold Outline.refusal at h ⊢
  split at h
  · next habsent =>
    refine ⟨(FsError.notFound.inj h).symm, ?_⟩
    intro path'
    rw [if_pos habsent]
    exact h
  · next hpresent =>
    cases told with
    | notFound what => exact absurd rfl hpresent
    | _ => cases h

theorem refusal_ofLookup (path : AbsolutePath) (walked : List String) (told : FsError) :
    (Outline.refusal path walked told).OfLookup := by
  unfold Outline.refusal
  split
  · exact ⟨by simp [missing], by simp [missing], by simp [missing]⟩
  · next hpresent =>
    cases told with
    | notADirectory what => exact absurd rfl hpresent
    | escapesRoot what => exact ⟨by simp [traversalPrevented], by simp [traversalPrevented], by simp [traversalPrevented]⟩
    | permissionDenied what =>
      exact ⟨by simp [traversalPrevented], by simp [traversalPrevented], by simp [traversalPrevented]⟩
    | system told =>
      refine ⟨by simp, ?_, by simp⟩
      rintro _ ⟨⟩
      simpa [FsError.isNotFound, FsError.isNotADirectory] using hpresent
    | _ => exact ⟨by simp, by simp, by simp⟩

/-! ## Look-ups -/

namespace Tree

variable {t : Tree} {ext : External} {path : AbsolutePath}

theorem resolve_of_root {root : Node} (h : t.node? t.root = some root) (ext : External) (path : AbsolutePath) :
    t.resolve ext path = t.walk ext path [] (.ofNode t.root root) path.names := by
  rw [resolve, h]

/-- what the first names of a path lead to does not depend on what follows -/
theorem resolve_upTo (hroot : (t.node? t.root).isSome) {place : Place} (h : t.resolve ext path = .ok place) (k : Nat) :
    ∃ place, t.resolve ext (path.upTo k) = .ok place := by
  obtain ⟨root, hroot⟩ := Option.isSome_iff_exists.1 hroot
  rw [resolve_of_root hroot, ← List.take_append_drop k path.names, walk_append_eq_ok] at h
  obtain ⟨above, habove, -⟩ := h
  refine ⟨above, ?_⟩
  rw [resolve_of_root hroot]
  exact walk_ok_path habove _ _

/-- an absent path is told by the first names that lead nowhere -/
theorem resolve_missing (hroot : (t.node? t.root).isSome) {text : String}
    (h : t.resolve ext path = .error (.notFound text)) : ∃ k ≤ path.names.length,
      text = (path.upTo k).text ∧ (∀ j < k, ∃ place, t.resolve ext (path.upTo j) = .ok place) ∧
        ∀ longer : AbsolutePath, path.names.take k <+: longer.names → t.resolve ext longer = .error (.notFound text) := by
  obtain ⟨root, hnode⟩ := Option.isSome_iff_exists.1 hroot
  rw [resolve_of_root hnode] at h
  obtain ⟨front, name, rest, told, hnames, ⟨p, hp⟩, hstop⟩ := walk_stops h
  rw [hnames, hstop, List.nil_append, Except.error.injEq] at h
  obtain ⟨rfl, habsent⟩ := refusal_notFound h
  have hfront : t.resolve ext (path.upTo front.length) = .ok p := by
    have hcut : (path.upTo front.length).names = front := by simp [AbsolutePath.upTo, hnames]
    rw [resolve_of_root hnode, hcut]
    exact walk_ok_path hp _ _
  have htake : path.names.take (front.length + 1) = front ++ [name] := by
    rw [hnames, List.take_left' (by simp)]
  refine ⟨front.length + 1, by simp [hnames], ?_, ?_, ?_⟩
  · rw [AbsolutePath.text, AbsolutePath.upTo, htake]
  · intro j hj
    have hshorter : (path.upTo front.length).upTo j = path.upTo j := by
      rw [AbsolutePath.upTo, AbsolutePath.upTo, AbsolutePath.upTo, List.take_take, Nat.min_eq_left (Nat.le_of_lt_succ hj)]
    obtain ⟨place, hplace⟩ := resolve_upTo hroot hfront j
    rw [hshorter] at hplace
    exact ⟨place, hplace⟩
  · rintro longer ⟨more, hmore⟩
    rw [htake] at hmore
    rw [resolve_of_root hnode, ← hmore, hstop, List.nil_append, habsent]

theorem resolve_ofLookup (hroot : (t.node? t.root).isSome) {e : FsError} (h : t.resolve ext path = .error e) :
    e.OfLookup := by
  obtain ⟨root, hroot⟩ := Option.isSome_iff_exists.1 hroot
  rw [resolve_of_root hroot] at h
  obtain ⟨walked, told, hwords⟩ := walk_error h
  rw [hwords] at h
  cases h
  exact refusal_ofLookup path walked told

theorem tellsMissing (hroot : (t.node? t.root).isSome) (ext : External) (path : AbsolutePath) :
    t.TellsMissing ext path where
  above := fun _ h => resolve_upTo hroot h
  missing := fun _ => resolve_missing hroot
  told := fun _ => resolve_ofLookup hroot
  orMissing := ⟨resolveOrMissing_eq_none, fun _ => resolveOrMissing_eq_some, fun _ => resolveOrMissing_eq_error⟩

theorem Reached.root (h : t.Reached) : (t.node? t.root).isSome := by
  rw [node?_isSome]
  cases h with
  | calls root calls proper => exact (sound_runCalls (sound_withRoot root) proper).rootPresent
  | events id settings now events =>
    have hfresh := (Namespace.good_new id settings now).tree
    exact ((Namespace.run_passes hfresh events).stacked hfresh).rootPresent

/-- **What is not found is named by the first names that are missing.** -/
theorem first_missing_named (h : t.Reached) (ext : External) (path : AbsolutePath) : t.TellsMissing ext path :=
  tellsMissing h.root ext path

/-- a file in the root of every filesystem, and below it nothing, in the words of an operating system -/
def loneFile : External := fun _ =>
  ⟨fun path => if path = .ofString "/f" then .ok ⟨1, .file, 0, none, none⟩
    else .error (.system ⟨.notADirectory, "Not a directory"⟩), fun _ => .ok [], fun _ _ _ => .ok .empty⟩

/-- a path that goes on below a file behind a mount -/
theorem shelved_missing : ((Namespace.new 1 {} 0).run Namespace.shelved).tree.Reached ∧
    ((Namespace.new 1 {} 0).run Namespace.shelved).tree.resolve loneFile ⟨1, ["M", "f", "x", "y"]⟩ =
      .error (.notFound "/M/f/x") ∧
    ((Namespace.new 1 {} 0).run Namespace.shelved).tree.TellsMissing loneFile ⟨1, ["M", "f", "x", "y"]⟩ := by
  have reached : ((Namespace.new 1 {} 0).run Namespace.shelved).tree.Reached := .events 1 {} 0 Namespace.shelved
  exact ⟨reached, by cbv, first_missing_named reached loneFile _⟩

end Tree

end MountSpace

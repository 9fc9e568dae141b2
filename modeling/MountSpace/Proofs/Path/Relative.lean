/-
Paths relative to one another. From one path to another that lies strictly below it leads one relative path, the names
of the other one that are left; followed from the first path it comes back to the other. So "lies below" means "is reached
by a relative path" (`leads_back`).

Whether a path lies below another is asked apart from case, and the names that are left are taken by count and keep their
spelling. Both agree because a path and what it is the beginning of have folded names of the same number.
-/
import MountSpace.Proofs.Path.Grammar
import MountSpace.Proofs.Path.Matching

namespace MountSpace

/-- an absolute path of a namespace that operations on paths have made -/
abbrev PathIn (space : NamespaceId) := { p : AbsolutePath // Made (.absolute p) ∧ p.owner = space }

/-- a relative path of a namespace that operations on paths have made -/
abbrev RelativeIn (space : NamespaceId) := { r : RelativePath // Made (.relative r) ∧ r.owner = space }

/-- in a namespace, relative paths lead from a path to all that lies below it and back to themselves -/
structure LeadsBack (space : NamespaceId) : Prop where
  /-- the way to where a relative path has led is that path -/
  back : ∀ (p : PathIn space) (r : RelativeIn space),
    ∃ there, p.1.resolveRelative r.1 = .ok there ∧ p.1.relativize there = .ok r.1
  /-- there is a way exactly to what starts with the path and is another -/
  exists_iff : ∀ p q : PathIn space,
    (∃ r, p.1.relativize q.1 = .ok r) ↔ q.1.startsWith p.1 = true ∧ q.1.same p.1 = false
  /-- the way is the names that are left, as they are spelled, and leads there -/
  trailing : ∀ (p q : PathIn space) (r : RelativePath), p.1.relativize q.1 = .ok r →
    r = ⟨space, q.1.names.drop p.1.names.length⟩ ∧ ∃ there, p.1.resolveRelative r = .ok there ∧ there.same q.1 = true
  /-- a path starts with itself and with what it is reached from -/
  starts_iff : ∀ p q : PathIn space, q.1.startsWith p.1 = true ↔ q.1.same p.1 = true ∨
    ∃ (r : RelativeIn space) (there : AbsolutePath), p.1.resolveRelative r.1 = .ok there ∧ q.1.same there = true
  reflexive : ∀ p : PathIn space, p.1.startsWith p.1 = true
  transitive : ∀ p q r : PathIn space, r.1.startsWith q.1 = true → q.1.startsWith p.1 = true →
    r.1.startsWith p.1 = true
  antisymmetric : ∀ p q : PathIn space, p.1.startsWith q.1 = true → q.1.startsWith p.1 = true → p.1.same q.1 = true
  /-- one name more on the way is one name more at its end, or one refusal -/
  joined : ∀ (p : PathIn space) (r : RelativeIn space) (name : String),
    (r.1.join name).bind p.1.resolveRelative = (p.1.resolveRelative r.1).bind (·.join name)
  /-- the paths with one name more are those with this path as their parent and that name last -/
  parent : ∀ (p : PathIn space) (name : String) (longer : AbsolutePath), p.1.join name = .ok longer ↔
    Component name ∧ longer.parent? = some p.1 ∧ longer.fileName? = some name

/-! ## One operation -/

theorem RelativePath.join_eq {r : RelativePath} {name : String} :
    r.join name = (checkName name).map fun _ => ⟨r.owner, r.names ++ [name]⟩ := by
  rw [RelativePath.join]
  cases checkName name <;> rfl

namespace AbsolutePath

variable {p q : AbsolutePath} {r : RelativePath} {name : String}

theorem join_eq : p.join name = (checkName name).map fun _ => ⟨p.owner, p.names ++ [name]⟩ := by
  rw [join]
  cases checkName name <;> rfl

/-- a path is another one with a name more exactly if the other is its parent and the name its last -/
theorem eq_concat_iff : q = ⟨p.owner, p.names ++ [name]⟩ ↔ q.parent? = some p ∧ q.fileName? = some name := by
  obtain ⟨owner, names⟩ := q
  rcases List.eq_nil_or_concat names with rfl | ⟨front, last, rfl⟩
  · simp [parent?]
  · obtain ⟨space, before⟩ := p
    simp [parent?, fileName?, and_assoc]

theorem join_eq_ok_iff : p.join name = .ok q ↔ Component name ∧ q.parent? = some p ∧ q.fileName? = some name := by
  rw [join_eq, map_eq_ok, ← eq_concat_iff, ← checkName_eq_ok]
  constructor
  · rintro ⟨⟨⟩, hname, rfl⟩
    exact ⟨hname, rfl⟩
  · rintro ⟨hname, rfl⟩
    exact ⟨(), hname, rfl⟩

theorem resolveRelative_own (h : r.owner = p.owner) : p.resolveRelative r = .ok ⟨p.owner, p.names ++ r.names⟩ :=
  if_pos h

theorem resolveRelative_foreign (h : r.owner ≠ p.owner) : p.resolveRelative r = .error (crossing r.owner p.owner) :=
  if_neg h

theorem resolve_own {other : NamespacePath} (h : other.owner = p.owner) :
    ∃ there, p.resolve other = .ok there ∧ there.owner = p.owner := by
  cases other with
  | absolute q => exact ⟨q, if_pos h, h⟩
  | relative r => exact ⟨_, resolveRelative_own h, rfl⟩

theorem resolve_foreign {other : NamespacePath} (h : other.owner ≠ p.owner) :
    p.resolve other = .error (crossing other.owner p.owner) := by
  cases other with
  | absolute q => exact if_neg h
  | relative r => exact resolveRelative_foreign h

theorem relativize_foreign (h : q.owner ≠ p.owner) : p.relativize q = .error (crossing q.owner p.owner) := if_pos h

theorem relativize_eq_error (h : q.owner = p.owner) {e : FsError} (he : p.relativize q = .error e) :
    ∃ what, e = .invalidPath what := by
  rw [relativize, if_neg (not_not_intro h)] at he
  split at he
  · cases he
  · cases he
    exact ⟨_, rfl⟩

/-- a path leads on exactly to what starts with it and is longer -/
theorem relativize_eq_ok (h : q.owner = p.owner) : p.relativize q = .ok r ↔
    q.startsWith p = true ∧ q.names.length ≠ p.names.length ∧ r = ⟨p.owner, q.names.drop p.names.length⟩ := by
  rw [relativize, if_neg (not_not_intro h)]
  split
  · next hbelow =>
    rw [Bool.and_eq_true, bne_iff_ne] at hbelow
    rw [and_iff_right hbelow.1, and_iff_right hbelow.2, Except.ok.injEq]
    exact eq_comm
  · next hbelow =>
    rw [Bool.and_eq_true, bne_iff_ne] at hbelow
    constructor
    · intro herror
      cases herror
    · rintro ⟨hstarts, hlonger, -⟩
      exact absurd ⟨hstarts, hlonger⟩ hbelow

theorem startsWith_own (h : q.owner = p.owner) :
    q.startsWith p = true ↔ foldNames p.names <+: foldNames q.names := by
  rw [startsWith_iff, and_iff_right h]

theorem same_own (h : q.owner = p.owner) : q.same p = true ↔ foldNames q.names = foldNames p.names := by
  rw [same_iff, and_iff_right h]

/-- of the paths that start with a path, those of its length are equal to it -/
theorem same_iff_length (h : q.startsWith p = true) : q.same p = true ↔ q.names.length = p.names.length := by
  obtain ⟨howner, hbegins⟩ := startsWith_iff.1 h
  rw [same_own howner]
  constructor
  · intro hfold
    rw [← length_foldNames q.names, hfold, length_foldNames]
  · intro hlength
    refine (hbegins.eq_of_length ?_).symm
    rw [length_foldNames, length_foldNames, hlength]

/-- the names left over behind a path, put behind it again -/
theorem foldNames_rest (h : foldNames p.names <+: foldNames q.names) :
    foldNames (p.names ++ q.names.drop p.names.length) = foldNames q.names := by
  obtain ⟨rest, hrest⟩ := h
  rw [foldNames_append, ← hrest]
  congr 1
  calc foldNames (q.names.drop p.names.length)
    _ = (foldNames q.names).drop p.names.length := List.map_drop
    _ = rest := by rw [← hrest, ← length_foldNames p.names, List.drop_left]

end AbsolutePath

/-! ## All paths of a namespace -/

section Laws

variable {space : NamespaceId} (p q : PathIn space)

/-- what a path of the namespace leads to in the namespace -/
theorem own_owner : q.1.owner = p.1.owner := q.2.2.trans p.2.2.symm

theorem RelativeIn.own (r : RelativeIn space) : r.1.owner = p.1.owner := r.2.2.trans p.2.2.symm

/-- what is left of a path behind one that it strictly starts with is a relative path -/
theorem made_rest {r : RelativePath} (h : p.1.relativize q.1 = .ok r) : Made (.relative r) ∧ r.owner = space := by
  obtain ⟨-, -, rfl⟩ := (AbsolutePath.relativize_eq_ok (own_owner p q)).1 h
  exact ⟨.relativize p.2.1 q.2.1 h, p.2.2⟩

theorem resolve_rest (hstarts : q.1.startsWith p.1 = true) :
    ∃ there, p.1.resolveRelative ⟨p.1.owner, q.1.names.drop p.1.names.length⟩ = .ok there ∧ there.same q.1 = true := by
  refine ⟨_, AbsolutePath.resolveRelative_own rfl, ?_⟩
  rw [AbsolutePath.same_iff]
  exact ⟨own_owner q p, AbsolutePath.foldNames_rest ((AbsolutePath.startsWith_own (own_owner p q)).1 hstarts)⟩

theorem leads_back_to (r : RelativeIn space) :
    ∃ there, p.1.resolveRelative r.1 = .ok there ∧ p.1.relativize there = .ok r.1 := by
  refine ⟨_, AbsolutePath.resolveRelative_own (r.own p), ?_⟩
  have hsome : r.1.names ≠ [] := (Made.proper r.2.1).1
  refine (AbsolutePath.relativize_eq_ok ?_).2 ⟨?_, ?_, ?_⟩
  · rfl
  · rw [AbsolutePath.startsWith_iff, foldNames_append]
    refine ⟨rfl, ?_⟩
    exact List.prefix_append _ _
  · simpa using hsome
  · rw [List.drop_left]
    exact congrArg (RelativePath.mk · r.1.names) (r.own p)

theorem relativize_iff : (∃ r, p.1.relativize q.1 = .ok r) ↔ q.1.startsWith p.1 = true ∧ q.1.same p.1 = false := by
  have hlength (h : q.1.startsWith p.1 = true) : q.1.same p.1 = false ↔ q.1.names.length ≠ p.1.names.length := by
    rw [← Bool.not_eq_true, AbsolutePath.same_iff_length h]
  constructor
  · rintro ⟨r, h⟩
    obtain ⟨hstarts, hlonger, -⟩ := (AbsolutePath.relativize_eq_ok (own_owner p q)).1 h
    exact ⟨hstarts, (hlength hstarts).2 hlonger⟩
  · rintro ⟨hstarts, hother⟩
    exact ⟨_, (AbsolutePath.relativize_eq_ok (own_owner p q)).2 ⟨hstarts, (hlength hstarts).1 hother, rfl⟩⟩

theorem trailing_names {r : RelativePath} (h : p.1.relativize q.1 = .ok r) :
    r = ⟨space, q.1.names.drop p.1.names.length⟩ ∧ ∃ there, p.1.resolveRelative r = .ok there ∧ there.same q.1 = true := by
  obtain ⟨hstarts, -, rfl⟩ := (AbsolutePath.relativize_eq_ok (own_owner p q)).1 h
  refine ⟨?_, resolve_rest p q hstarts⟩
  rw [p.2.2]

theorem startsWith_iff_reached : q.1.startsWith p.1 = true ↔ q.1.same p.1 = true ∨
    ∃ (r : RelativeIn space) (there : AbsolutePath), p.1.resolveRelative r.1 = .ok there ∧ q.1.same there = true := by
  have hown := own_owner p q
  constructor
  · intro hstarts
    by_cases hsame : q.1.same p.1 = true
    · exact .inl hsame
    · rw [Bool.not_eq_true] at hsame
      obtain ⟨r, hr⟩ := (relativize_iff p q).2 ⟨hstarts, hsame⟩
      obtain ⟨-, there, hthere, hq⟩ := trailing_names p q hr
      refine .inr ⟨⟨r, made_rest p q hr⟩, there, hthere, ?_⟩
      rw [AbsolutePath.same_iff] at hq ⊢
      exact ⟨hq.1.symm, hq.2.symm⟩
  · rintro (hsame | ⟨r, there, hthere, hsame⟩)
    · have hnames := (AbsolutePath.same_own hown).1 hsame
      exact (AbsolutePath.startsWith_own hown).2 (hnames ▸ List.prefix_refl _)
    · rw [AbsolutePath.resolveRelative_own (r.own p)] at hthere
      cases hthere
      rw [AbsolutePath.startsWith_own hown, (AbsolutePath.same_iff.1 hsame).2, foldNames_append]
      exact List.prefix_append _ _

theorem resolve_joined (r : RelativeIn space) (name : String) :
    (r.1.join name).bind p.1.resolveRelative = (p.1.resolveRelative r.1).bind (·.join name) := by
  have hend : p.1.resolveRelative ⟨r.1.owner, r.1.names ++ [name]⟩ =
      .ok ⟨p.1.owner, p.1.names ++ (r.1.names ++ [name])⟩ := AbsolutePath.resolveRelative_own (r.own p)
  calc (r.1.join name).bind p.1.resolveRelative
    _ = (checkName name).bind fun _ => p.1.resolveRelative ⟨r.1.owner, r.1.names ++ [name]⟩ := by
      rw [RelativePath.join_eq]
      cases checkName name <;> rfl
    _ = (checkName name).map fun _ => ⟨p.1.owner, p.1.names ++ r.1.names ++ [name]⟩ := by
      rw [hend, List.append_assoc]
      cases checkName name <;> rfl
    _ = (p.1.resolveRelative r.1).bind (·.join name) := by
      rw [AbsolutePath.resolveRelative_own (r.own p)]
      exact (AbsolutePath.join_eq (p := ⟨p.1.owner, p.1.names ++ r.1.names⟩)).symm

end Laws

/-- **Relative paths lead to all that lies below a path, and back.** -/
theorem leads_back (space : NamespaceId) : LeadsBack space where
  back := leads_back_to
  exists_iff := relativize_iff
  trailing := fun p q r => trailing_names p q
  starts_iff := startsWith_iff_reached
  reflexive := by
    intro p
    exact (AbsolutePath.startsWith_own rfl).2 (List.prefix_refl _)
  transitive := by
    intro p q r hrq hqp
    rw [AbsolutePath.startsWith_own (own_owner _ _)] at hrq hqp ⊢
    exact hqp.trans hrq
  antisymmetric := by
    intro p q hpq hqp
    rw [AbsolutePath.startsWith_own (own_owner _ _)] at hpq hqp
    rw [AbsolutePath.same_own (own_owner _ _)]
    exact hqp.eq_of_length (Nat.le_antisymm hqp.length_le hpq.length_le)
  joined := resolve_joined
  parent := fun p name longer => AbsolutePath.join_eq_ok_iff

/-- below in any spelling, and the rest of the way in its own -/
example : (⟨1, ["A", "b"]⟩ : AbsolutePath).relativize ⟨1, ["a", "B", "c", "D"]⟩ = .ok ⟨1, ["c", "D"]⟩ := by decide

end MountSpace

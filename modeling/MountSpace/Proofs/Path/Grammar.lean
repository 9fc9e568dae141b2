/-
The grammar of paths as text, and how it is read. A component is some characters without a separator that are no run of
one to three dots. A relative path is one or more components with separators between them, an absolute path a separator
alone or a separator before a relative path. Neither grammar gives two readings to one text, and no text is in both.

- `joined_iff`: the components joined by separators are one text, and its pieces are the components;
- `reads_absolute`, `reads_relative`, `reads_either`: each reader takes the texts of its grammar, every component with
  the letters it is written with, and refuses all other texts as invalid;
- `Made.proper`: a path that operations on paths have made holds components only, so its text is one of its grammar;
- `read_exactly`: the three readers are exact, and what is shown of a path is read as that path.
-/
import MountSpace.Path.Basic
import MountSpace.Proofs.Path.Contained

namespace MountSpace

/-! ## The grammar -/

/-- a component of a path -/
structure Component (name : String) : Prop where
  someText : name ≠ ""
  noSeparator : '/' ∉ name.toList
  noDots : name ≠ "." ∧ name ≠ ".." ∧ name ≠ "..."

/-- one or more components with separators between them -/
inductive Joined : List String → String → Prop where
  | last {name : String} (component : Component name) : Joined [name] name
  | more {name text : String} {names : List String} (component : Component name) (joined : Joined names text) :
      Joined (name :: names) (name ++ "/" ++ text)

/-- a separator alone, or a separator and components after it -/
inductive FromRoot : List String → String → Prop where
  | root : FromRoot [] "/"
  | below {text : String} {names : List String} (joined : Joined names text) : FromRoot names ("/" ++ text)

/-- the text of a path of either kind -/
inductive Written (owner : NamespaceId) : NamespacePath → String → Prop where
  | absolute {text : String} {names : List String} (written : FromRoot names text) :
      Written owner (.absolute ⟨owner, names⟩) text
  | relative {text : String} {names : List String} (written : Joined names text) :
      Written owner (.relative ⟨owner, names⟩) text

/-! ## Components and texts -/

theorem nameFault?_eq_none {name : String} : nameFault? name = none ↔ Component name := by
  have spelled (text : String) : name = text ↔ name.toList = text.toList := String.toList_inj.symm
  constructor
  · intro h
    unfold nameFault? at h
    split at h
    · cases h
    · cases h
    · cases h
    · cases h
    · next h0 h1 h2 h3 =>
      refine ⟨?_, ?_, ?_, ?_, ?_⟩
      · exact fun e => h0 ((spelled "").1 e)
      · intro hm
        rw [if_pos hm] at h
        cases h
      · exact fun e => h1 ((spelled ".").1 e)
      · exact fun e => h2 ((spelled "..").1 e)
      · exact fun e => h3 ((spelled "...").1 e)
  · rintro ⟨hne, hsep, h1, h2, h3⟩
    rw [ne_eq, spelled] at hne h1 h2 h3
    unfold nameFault?
    split
    · next h => exact absurd h hne
    · next h => exact absurd h h1
    · next h => exact absurd h h2
    · next h => exact absurd h h3
    · exact if_neg hsep

theorem checkNames_eq_ok_iff {names : List String} : checkNames names = .ok () ↔ ∀ n ∈ names, Component n := by
  simp only [checkNames_eq_ok, nameFault?_eq_none]

/-- a name is refused as an invalid path -/
theorem checkName_eq_error {name : String} {e : FsError} (h : checkName name = .error e) :
    ∃ what, e = .invalidPath what := by
  rw [checkName] at h
  cases hf : nameFault? name with
  | none =>
    rw [hf] at h
    cases h
  | some fault =>
    rw [hf] at h
    cases h
    exact ⟨_, rfl⟩

theorem checkNames_eq_error {names : List String} {e : FsError} (h : checkNames names = .error e) :
    ∃ what, e = .invalidPath what := by
  induction names with
  | nil => cases h
  | cons name rest ih =>
    rw [checkNames] at h
    cases hc : checkName name with
    | ok _ =>
      rw [hc] at h
      exact ih h
    | error fault =>
      rw [hc] at h
      cases h
      exact checkName_eq_error hc

theorem joinNames_splitNames (text : String) : joinNames (splitNames text.toList) = text := by
  simp [joinNames, splitNames, Function.comp_def, Text.join_split]

theorem splitNames_joinNames {names : List String} (hne : names ≠ []) (h : ∀ n ∈ names, '/' ∉ n.toList) :
    splitNames (joinNames names).toList = names := by
  rw [joinNames, splitNames, String.toList_ofList, Text.split_join '/' (by simpa using hne) (by simpa using h)]
  simp [Function.comp_def]

theorem splitNames_ne_nil (text : List Char) : splitNames text ≠ [] := by
  simp [splitNames, Text.split_ne_nil]

theorem joinNames_cons {name : String} {names : List String} (hne : names ≠ []) :
    joinNames (name :: names) = name ++ "/" ++ joinNames names := by
  cases names with
  | nil => exact absurd rfl hne
  | cons next more =>
    apply String.toList_inj.1
    simp [joinNames, Text.join]

/-- components joined by separators are one text -/
theorem joined_iff {names : List String} {text : String} :
    Joined names text ↔ names ≠ [] ∧ (∀ n ∈ names, Component n) ∧ joinNames names = text := by
  constructor
  · intro h
    induction h with
    | @last name component => exact ⟨by simp, by simpa using component, String.ofList_toList⟩
    | more component joined ih =>
      obtain ⟨hne, hall, rfl⟩ := ih
      exact ⟨by simp, List.forall_mem_cons.2 ⟨component, hall⟩, joinNames_cons hne⟩
  · rintro ⟨hne, hall, rfl⟩
    induction names with
    | nil => exact absurd rfl hne
    | cons name rest ih =>
      obtain ⟨hname, hrest⟩ := List.forall_mem_cons.1 hall
      cases rest with
      | nil =>
        have htext : joinNames [name] = name := String.ofList_toList
        rw [htext]
        exact .last hname
      | cons next more =>
        rw [joinNames_cons (by simp)]
        exact .more hname (ih (by simp) hrest)

/-- a text is cut into the components it joins -/
theorem joined_iff_splitNames {names : List String} {text : String} :
    Joined names text ↔ splitNames text.toList = names ∧ ∀ n ∈ names, Component n := by
  rw [joined_iff]
  constructor
  · rintro ⟨hne, hall, rfl⟩
    exact ⟨splitNames_joinNames hne fun n hn => (hall n hn).noSeparator, hall⟩
  · rintro ⟨rfl, hall⟩
    exact ⟨splitNames_ne_nil _, hall, joinNames_splitNames text⟩

/-- a component followed by anything does not begin with a separator -/
theorem Component.head_ne {name : String} (component : Component name) (rest : List Char) :
    (name.toList ++ rest).head? ≠ some '/' := by
  cases hl : name.toList with
  | nil => exact absurd (String.toList_inj.1 (hl.trans rfl)) component.someText
  | cons c more =>
    intro hc
    have hslash : c = '/' := Option.some.inj hc
    exact component.noSeparator (by simp [hl, hslash])

theorem Joined.head_ne {names : List String} {text : String} (h : Joined names text) :
    text.toList.head? ≠ some '/' := by
  cases h with
  | last component =>
    have begins := component.head_ne []
    rwa [List.append_nil] at begins
  | more component joined =>
    rw [String.append_assoc, String.toList_append]
    exact component.head_ne _

theorem Joined.ne_empty {names : List String} {text : String} (h : Joined names text) : text ≠ "" := by
  rintro rfl
  obtain ⟨rfl, hall⟩ := joined_iff_splitNames.1 h
  exact (hall "" (by decide)).someText rfl

/-- behind the first separator there is nothing, or components -/
theorem fromRoot_iff {names : List String} {rest : String} :
    FromRoot names ("/" ++ rest) ↔ rest = "" ∧ names = [] ∨ Joined names rest := by
  constructor
  · intro h
    generalize htext : "/" ++ rest = text at h
    have cancel {other : String} (e : "/" ++ rest = "/" ++ other) : rest = other := by
      apply String.toList_inj.1
      simpa using congrArg String.toList e
    cases h with
    | root =>
      have hnil : rest = "" := cancel htext
      exact .inl ⟨hnil, rfl⟩
    | below joined =>
      rw [cancel htext]
      exact .inr joined
  · rintro (⟨rfl, rfl⟩ | joined)
    · exact .root
    · exact .below joined

theorem FromRoot.head {names : List String} {text : String} (h : FromRoot names text) :
    text.toList.head? = some '/' := by
  cases h with
  | root => rfl
  | below joined => simp

/-- what is shown of names from the root -/
theorem FromRoot.text {names : List String} {text : String} (h : FromRoot names text) :
    "/" ++ joinNames names = text := by
  cases h with
  | root => rfl
  | below joined => rw [(joined_iff.1 joined).2.2]

theorem fromRoot_of_components {names : List String} (h : ∀ n ∈ names, Component n) :
    FromRoot names ("/" ++ joinNames names) := by
  by_cases hne : names = []
  · rw [hne]
    exact .root
  · exact .below (joined_iff.2 ⟨hne, h, rfl⟩)

/-! ## Readers -/

theorem AbsolutePath.ofNames_eq_ok {owner : NamespaceId} {names : List String} {p : AbsolutePath} :
    AbsolutePath.ofNames owner names = .ok p ↔ p = ⟨owner, names⟩ ∧ ∀ n ∈ names, Component n := by
  rw [AbsolutePath.ofNames, ← checkNames_eq_ok_iff]
  cases checkNames names with
  | error e => simp
  | ok _ => simp [eq_comm]

theorem RelativePath.ofNames_eq_ok {owner : NamespaceId} {names : List String} {p : RelativePath} :
    RelativePath.ofNames owner names = .ok p ↔ p = ⟨owner, names⟩ ∧ names ≠ [] ∧ ∀ n ∈ names, Component n := by
  rw [RelativePath.ofNames, ← checkNames_eq_ok_iff]
  cases checkNames names with
  | error e => simp
  | ok _ =>
    by_cases hne : names = []
    · simp [hne]
    · simp [hne, eq_comm]

theorem AbsolutePath.ofNames_eq_error {owner : NamespaceId} {names : List String} {e : FsError}
    (h : AbsolutePath.ofNames owner names = .error e) : ∃ what, e = .invalidPath what := by
  rw [AbsolutePath.ofNames] at h
  cases hc : checkNames names with
  | error e' =>
    rw [hc] at h
    cases h
    exact checkNames_eq_error hc
  | ok _ =>
    rw [hc] at h
    cases h

theorem RelativePath.ofNames_eq_error {owner : NamespaceId} {names : List String} {e : FsError}
    (h : RelativePath.ofNames owner names = .error e) : ∃ what, e = .invalidPath what := by
  rw [RelativePath.ofNames] at h
  cases hc : checkNames names with
  | error e' =>
    rw [hc] at h
    cases h
    exact checkNames_eq_error hc
  | ok _ =>
    rw [hc] at h
    by_cases hne : names = []
    · simp only [if_pos hne] at h
      cases h
      exact ⟨_, rfl⟩
    · simp only [if_neg hne] at h
      cases h

/-- a reader that takes exactly the texts of a grammar, keeps the text of what it reads, and refuses every other text
as an invalid path -/
structure Reads {α : Type} (read : String → Except FsError α) (shown : α → String) (grammar : α → String → Prop) :
    Prop where
  exact : ∀ text p, read text = .ok p ↔ grammar p text
  keeps : ∀ text p, read text = .ok p → shown p = text
  refuses : ∀ text e, read text = .error e → ∃ what, e = .invalidPath what

/-- what an absolute path is read from: a separator alone, a separator and more, or something else -/
inductive Beginning : String → Prop where
  | alone : Beginning "/"
  | more {rest : String} (something : rest ≠ "") : Beginning ("/" ++ rest)
  | other {text : String} (elsewhere : text.toList.head? ≠ some '/') : Beginning text

theorem beginning (text : String) : Beginning text := by
  by_cases h : text.toList.head? = some '/'
  · obtain ⟨rest, hrest⟩ : ∃ rest, text.toList = '/' :: rest := by
      cases hl : text.toList with
      | nil => rw [hl] at h; cases h
      | cons c rest => rw [hl] at h; exact ⟨rest, by rw [Option.some.inj h]⟩
    have htext : text = "/" ++ String.ofList rest := String.toList_inj.1 (by simp [hrest])
    rw [htext]
    by_cases hne : rest = []
    · rw [hne]
      exact .alone
    · exact .more fun e => hne (by simpa using congrArg String.toList e)
  · exact .other h

theorem AbsolutePath.parse_more (owner : NamespaceId) {rest : String} (h : rest ≠ "") :
    AbsolutePath.parse owner ("/" ++ rest) = AbsolutePath.ofNames owner (splitNames rest.toList) := by
  have hne : rest.toList ≠ [] := fun e => h (String.toList_inj.1 (e.trans rfl))
  have htext : ("/" ++ rest).toList = '/' :: rest.toList := by simp
  unfold AbsolutePath.parse
  rw [htext]
  split
  · next e => exact absurd (List.cons.inj e).2 hne
  · next e => rw [(List.cons.inj e).2]
  · next e => exact absurd rfl (e _)

theorem AbsolutePath.parse_other (owner : NamespaceId) {text : String} (h : text.toList.head? ≠ some '/') :
    ∃ what, AbsolutePath.parse owner text = .error (.invalidPath what) := by
  unfold AbsolutePath.parse
  split
  · next e => exact absurd (by rw [e]; rfl) h
  · next e => exact absurd (by rw [e]; rfl) h
  · exact ⟨_, rfl⟩

theorem reads_absolute (owner : NamespaceId) :
    Reads (AbsolutePath.parse owner) AbsolutePath.text fun p text => p.owner = owner ∧ FromRoot p.names text := by
  have exact (text : String) (p : AbsolutePath) :
      AbsolutePath.parse owner text = .ok p ↔ p.owner = owner ∧ FromRoot p.names text := by
    cases beginning text with
    | alone =>
      obtain ⟨own, names⟩ := p
      constructor
      · intro h
        cases h
        exact ⟨rfl, .root⟩
      · rintro ⟨rfl, written⟩
        have written : FromRoot names ("/" ++ "") := written
        rcases fromRoot_iff.1 written with ⟨-, rfl⟩ | joined
        · rfl
        · exact absurd rfl joined.ne_empty
    | @more rest something =>
      obtain ⟨own, names⟩ := p
      rw [AbsolutePath.parse_more owner something, AbsolutePath.ofNames_eq_ok, fromRoot_iff, joined_iff_splitNames]
      constructor
      · rintro ⟨h, hall⟩
        cases h
        exact ⟨rfl, .inr ⟨rfl, hall⟩⟩
      · rintro ⟨rfl, ⟨h, -⟩ | ⟨rfl, hall⟩⟩
        · exact absurd h something
        · exact ⟨rfl, hall⟩
    | other elsewhere =>
      obtain ⟨what, hw⟩ := AbsolutePath.parse_other owner elsewhere
      constructor
      · intro h
        rw [hw] at h
        cases h
      · rintro ⟨-, written⟩
        exact absurd written.head elsewhere
  refine ⟨exact, ?_, ?_⟩
  · intro text p h
    exact ((exact text p).1 h).2.text
  · intro text e h
    cases beginning text with
    | alone => cases h
    | more something =>
      rw [AbsolutePath.parse_more owner something] at h
      exact AbsolutePath.ofNames_eq_error h
    | other elsewhere =>
      obtain ⟨what, hw⟩ := AbsolutePath.parse_other owner elsewhere
      rw [hw] at h
      cases h
      exact ⟨what, rfl⟩

theorem reads_relative (owner : NamespaceId) :
    Reads (RelativePath.parse owner) RelativePath.text fun p text => p.owner = owner ∧ Joined p.names text := by
  have exact (text : String) (p : RelativePath) :
      RelativePath.parse owner text = .ok p ↔ p.owner = owner ∧ Joined p.names text := by
    obtain ⟨own, names⟩ := p
    rw [RelativePath.parse]
    split
    · next hhead =>
      constructor
      · intro h
        cases h
      · rintro ⟨-, joined⟩
        exact absurd hhead joined.head_ne
    · rw [RelativePath.ofNames_eq_ok, joined_iff_splitNames]
      constructor
      · rintro ⟨h, -, hall⟩
        cases h
        exact ⟨rfl, rfl, hall⟩
      · rintro ⟨rfl, rfl, hall⟩
        exact ⟨rfl, splitNames_ne_nil _, hall⟩
  refine ⟨exact, ?_, ?_⟩
  · intro text p h
    exact (joined_iff.1 ((exact text p).1 h).2).2.2
  · intro text e h
    rw [RelativePath.parse] at h
    split at h
    · cases h
      exact ⟨_, rfl⟩
    · exact RelativePath.ofNames_eq_error h

theorem NamespacePath.parse_rooted (owner : NamespaceId) {text : String} (h : text.toList.head? = some '/') :
    NamespacePath.parse owner text = (AbsolutePath.parse owner text).map .absolute := if_pos h

theorem NamespacePath.parse_unrooted (owner : NamespaceId) {text : String} (h : text.toList.head? ≠ some '/') :
    NamespacePath.parse owner text = (RelativePath.parse owner text).map .relative := if_neg h

theorem map_eq_ok {ε α β : Type} {f : α → β} {r : Except ε α} {b : β} :
    r.map f = .ok b ↔ ∃ a, r = .ok a ∧ f a = b := by
  cases r <;> simp [Except.map]

theorem map_eq_error {ε α β : Type} {f : α → β} {r : Except ε α} {e : ε} : r.map f = .error e ↔ r = .error e := by
  cases r <;> simp [Except.map]

theorem reads_either (owner : NamespaceId) :
    Reads (NamespacePath.parse owner) NamespacePath.text (Written owner) := by
  have absolute := reads_absolute owner
  have relative := reads_relative owner
  have exact (text : String) (p : NamespacePath) : NamespacePath.parse owner text = .ok p ↔ Written owner p text := by
    constructor
    · intro h
      by_cases hhead : text.toList.head? = some '/'
      · rw [NamespacePath.parse_rooted owner hhead] at h
        obtain ⟨q, hq, rfl⟩ := map_eq_ok.1 h
        obtain ⟨rfl, written⟩ := (absolute.exact text q).1 hq
        exact .absolute written
      · rw [NamespacePath.parse_unrooted owner hhead] at h
        obtain ⟨q, hq, rfl⟩ := map_eq_ok.1 h
        obtain ⟨rfl, joined⟩ := (relative.exact text q).1 hq
        exact .relative joined
    · intro h
      cases h with
      | @absolute text names written =>
        have hq := (absolute.exact text ⟨owner, names⟩).2 ⟨rfl, written⟩
        rw [NamespacePath.parse_rooted owner written.head, hq]
        rfl
      | @relative text names joined =>
        have hq := (relative.exact text ⟨owner, names⟩).2 ⟨rfl, joined⟩
        rw [NamespacePath.parse_unrooted owner joined.head_ne, hq]
        rfl
  refine ⟨exact, ?_, ?_⟩
  · intro text p h
    cases (exact text p).1 h with
    | absolute written => exact written.text
    | relative joined => exact (joined_iff.1 joined).2.2
  · intro text e h
    by_cases hhead : text.toList.head? = some '/'
    · rw [NamespacePath.parse_rooted owner hhead] at h
      apply absolute.refuses text e
      exact map_eq_error.1 h
    · rw [NamespacePath.parse_unrooted owner hhead] at h
      apply relative.refuses text e
      exact map_eq_error.1 h

/-! ## Paths that operations have made -/

/-- the namespace a path belongs to -/
def NamespacePath.owner : NamespacePath → NamespaceId
  | absolute p => p.owner
  | relative p => p.owner

/-- the names of a path of either kind -/
def NamespacePath.names : NamespacePath → List String
  | absolute p => p.names
  | relative p => p.names

/-- a path that operations on paths have made, from any texts and names -/
inductive Made : NamespacePath → Prop where
  | root (owner : NamespaceId) : Made (.absolute (.root owner))
  | parse {owner : NamespaceId} {text : String} {p : NamespacePath} (h : NamespacePath.parse owner text = .ok p) :
      Made p
  | parseAbsolute {owner : NamespaceId} {text : String} {p : AbsolutePath} (h : AbsolutePath.parse owner text = .ok p) :
      Made (.absolute p)
  | parseRelative {owner : NamespaceId} {text : String} {p : RelativePath} (h : RelativePath.parse owner text = .ok p) :
      Made (.relative p)
  | ofNames {owner : NamespaceId} {names : List String} {p : AbsolutePath}
      (h : AbsolutePath.ofNames owner names = .ok p) : Made (.absolute p)
  | relativeOfNames {owner : NamespaceId} {names : List String} {p : RelativePath}
      (h : RelativePath.ofNames owner names = .ok p) : Made (.relative p)
  | parent {p parent : AbsolutePath} (made : Made (.absolute p)) (h : p.parent? = some parent) : Made (.absolute parent)
  | join {p longer : AbsolutePath} {name : String} (made : Made (.absolute p)) (h : p.join name = .ok longer) :
      Made (.absolute longer)
  | joinRelative {p longer : RelativePath} {name : String} (made : Made (.relative p)) (h : p.join name = .ok longer) :
      Made (.relative longer)
  | resolve {p there : AbsolutePath} {other : NamespacePath} (made : Made (.absolute p)) (makes : Made other)
      (h : p.resolve other = .ok there) : Made (.absolute there)
  | resolveRelative {p there : AbsolutePath} {rel : RelativePath} (made : Made (.absolute p))
      (makes : Made (.relative rel)) (h : p.resolveRelative rel = .ok there) : Made (.absolute there)
  | relativize {p target : AbsolutePath} {rel : RelativePath} (made : Made (.absolute p))
      (makes : Made (.absolute target)) (h : p.relativize target = .ok rel) : Made (.relative rel)

/-- every name of a path is a component, and a relative path has one -/
def NamespacePath.Proper : NamespacePath → Prop
  | absolute p => ∀ n ∈ p.names, Component n
  | relative p => p.names ≠ [] ∧ ∀ n ∈ p.names, Component n

theorem NamespacePath.Proper.written {p : NamespacePath} (h : p.Proper) : Written p.owner p p.text := by
  cases p with
  | absolute p => exact .absolute (fromRoot_of_components h)
  | relative p => exact .relative (joined_iff.2 ⟨h.1, h.2, rfl⟩)

theorem proper_of_written {owner : NamespaceId} {p : NamespacePath} {text : String} (h : Written owner p text) :
    p.Proper := by
  cases h with
  | absolute written =>
    cases written with
    | root => intro n hn; cases hn
    | below joined => exact (joined_iff.1 joined).2.1
  | relative joined => exact ⟨(joined_iff.1 joined).1, (joined_iff.1 joined).2.1⟩

theorem checkName_eq_ok {name : String} : checkName name = .ok () ↔ Component name := by
  rw [checkName_ok_iff, nameFault?_eq_none]

theorem AbsolutePath.join_components {p longer : AbsolutePath} {name : String} (h : p.join name = .ok longer) :
    longer.names = p.names ++ [name] ∧ Component name := by
  rw [AbsolutePath.join] at h
  cases hc : checkName name with
  | error e => rw [hc] at h; cases h
  | ok _ =>
    rw [hc] at h
    cases h
    exact ⟨rfl, checkName_eq_ok.1 hc⟩

theorem RelativePath.join_components {p longer : RelativePath} {name : String} (h : p.join name = .ok longer) :
    longer.names = p.names ++ [name] ∧ Component name := by
  rw [RelativePath.join] at h
  cases hc : checkName name with
  | error e => rw [hc] at h; cases h
  | ok _ =>
    rw [hc] at h
    cases h
    exact ⟨rfl, checkName_eq_ok.1 hc⟩

theorem AbsolutePath.resolveRelative_names {p there : AbsolutePath} {rel : RelativePath}
    (h : p.resolveRelative rel = .ok there) : there.names = p.names ++ rel.names := by
  rw [AbsolutePath.resolveRelative] at h
  split at h
  · cases h
    rfl
  · cases h

/-- the names on from a path lead strictly on -/
theorem AbsolutePath.relativize_names {p target : AbsolutePath} {rel : RelativePath}
    (h : p.relativize target = .ok rel) : rel.names = target.names.drop p.names.length ∧ rel.names ≠ [] := by
  rw [AbsolutePath.relativize] at h
  split at h
  · cases h
  · split at h
    · next hbelow =>
      cases h
      refine ⟨rfl, ?_⟩
      simp only [AbsolutePath.startsWith, Bool.and_eq_true, List.isPrefixOf_iff_prefix, bne_iff_ne, ne_eq] at hbelow
      obtain ⟨⟨-, starts⟩, longer⟩ := hbelow
      have hle : p.names.length ≤ target.names.length := by
        simpa [foldNames] using starts.length_le
      intro hnil
      have hshort := List.drop_eq_nil_iff.1 hnil
      exact longer (Nat.le_antisymm hshort hle)
    · cases h

/-- every path that operations have made holds components only -/
theorem Made.proper {p : NamespacePath} (h : Made p) : p.Proper := by
  induction h with
  | root owner => intro n hn; cases hn
  | parse h => exact proper_of_written ((reads_either _).exact _ _ |>.1 h)
  | parseAbsolute h =>
    obtain ⟨-, written⟩ := ((reads_absolute _).exact _ _).1 h
    exact proper_of_written (.absolute written)
  | parseRelative h =>
    obtain ⟨-, joined⟩ := ((reads_relative _).exact _ _).1 h
    exact proper_of_written (.relative joined)
  | ofNames h =>
    obtain ⟨rfl, hall⟩ := AbsolutePath.ofNames_eq_ok.1 h
    exact hall
  | relativeOfNames h =>
    obtain ⟨rfl, hne, hall⟩ := RelativePath.ofNames_eq_ok.1 h
    exact ⟨hne, hall⟩
  | parent made h ih =>
    rw [AbsolutePath.parent?] at h
    split at h
    · cases h
    · cases h
      intro n hn
      exact ih n (List.dropLast_subset _ hn)
  | join made h ih =>
    obtain ⟨hnames, hname⟩ := AbsolutePath.join_components h
    rw [NamespacePath.Proper, hnames, List.forall_mem_append]
    exact ⟨ih, by simpa using hname⟩
  | joinRelative made h ih =>
    obtain ⟨hnames, hname⟩ := RelativePath.join_components h
    rw [NamespacePath.Proper, hnames, List.forall_mem_append]
    exact ⟨by simp, ih.2, by simpa using hname⟩
  | @resolve p there other made makes h ih ihOther =>
    cases other with
    | absolute q =>
      rw [AbsolutePath.resolve] at h
      split at h
      · cases h
        exact ihOther
      · cases h
    | relative rel =>
      rw [NamespacePath.Proper, AbsolutePath.resolveRelative_names h, List.forall_mem_append]
      exact ⟨ih, ihOther.2⟩
  | resolveRelative made makes h ih ihRel =>
    rw [NamespacePath.Proper, AbsolutePath.resolveRelative_names h, List.forall_mem_append]
    exact ⟨ih, ihRel.2⟩
  | relativize made makes h ih ihTarget =>
    obtain ⟨hnames, hne⟩ := AbsolutePath.relativize_names h
    refine ⟨hne, ?_⟩
    intro n hn
    rw [hnames] at hn
    exact ihTarget n (List.mem_of_mem_drop hn)

/-- a path as it should be: its names are accepted, a relative one has some, and what is shown of it is read as it -/
structure NamespacePath.Valid (p : NamespacePath) : Prop where
  accepted : ∀ n ∈ p.names, checkName n = .ok ()
  someName : p.isAbsolute = false → p.names ≠ []
  reread : NamespacePath.parse p.owner p.text = .ok p
  rereadAbsolute : ∀ q, p = .absolute q → AbsolutePath.parse q.owner q.text = .ok q
  rereadRelative : ∀ q, p = .relative q → RelativePath.parse q.owner q.text = .ok q

theorem Made.valid {p : NamespacePath} (h : Made p) : p.Valid where
  accepted := by
    intro n hn
    rw [checkName_eq_ok]
    cases p with
    | absolute q => exact h.proper n hn
    | relative q => exact h.proper.2 n hn
  someName := by
    intro hkind
    cases p with
    | absolute q => cases hkind
    | relative q => exact h.proper.1
  reread := ((reads_either p.owner).exact _ _).2 h.proper.written
  rereadAbsolute := by
    rintro q rfl
    exact ((reads_absolute q.owner).exact _ _).2 ⟨rfl, fromRoot_of_components h.proper⟩
  rereadRelative := by
    rintro q rfl
    exact ((reads_relative q.owner).exact _ _).2 ⟨rfl, joined_iff.2 ⟨h.proper.1, h.proper.2, rfl⟩⟩

/-- **Paths are read exactly as their grammar writes them.** Each of the three readers takes the texts of its grammar
and no other, gives the components the text joins, and the path it gives is shown as the text it was read from; whatever
else it is given it refuses as an invalid path. A reader of both kinds takes a text for absolute exactly when it begins
with a separator. And whatever operations a path comes from, what is shown of it is read as that path again, with
exactly its names. -/
theorem read_exactly :
    (∀ owner,
      Reads (AbsolutePath.parse owner) AbsolutePath.text (fun p text => p.owner = owner ∧ FromRoot p.names text) ∧
      Reads (RelativePath.parse owner) RelativePath.text (fun p text => p.owner = owner ∧ Joined p.names text) ∧
      Reads (NamespacePath.parse owner) NamespacePath.text (Written owner)) ∧
    (∀ owner text p, NamespacePath.parse owner text = .ok p →
      (p.isAbsolute = true ↔ text.toList.head? = some '/')) ∧
    ∀ p, Made p → NamespacePath.parse p.owner p.text = .ok p ∧
      (∀ q, p = .absolute q → AbsolutePath.parse q.owner q.text = .ok q) ∧
      ∀ q, p = .relative q → RelativePath.parse q.owner q.text = .ok q := by
  refine ⟨?_, ?_, ?_⟩
  · intro owner
    exact ⟨reads_absolute owner, reads_relative owner, reads_either owner⟩
  · intro owner text p h
    cases ((reads_either owner).exact text p).1 h with
    | absolute written => simp [NamespacePath.isAbsolute, written.head]
    | relative joined => simp [NamespacePath.isAbsolute, joined.head_ne]
  · intro p made
    have valid := made.valid
    exact ⟨valid.reread, valid.rereadAbsolute, valid.rereadRelative⟩

/-- a path joined from the root, in its own spelling -/
theorem joinedPath_read_exactly : Made (.absolute ⟨1, ["A", "b c"]⟩) ∧
    AbsolutePath.parse 1 "/A/b c" = .ok ⟨1, ["A", "b c"]⟩ := by
  have once : (AbsolutePath.root 1).join "A" = .ok ⟨1, ["A"]⟩ := rfl
  have twice : (⟨1, ["A"]⟩ : AbsolutePath).join "b c" = .ok ⟨1, ["A", "b c"]⟩ := rfl
  have made : Made (.absolute ⟨1, ["A", "b c"]⟩) := .join (.join (.root 1) once) twice
  exact ⟨made, (read_exactly.2.2 _ made).2.1 _ rfl⟩

end MountSpace

/-
A store in memory remembers its history. Of the calls it has been given only those count that it has not refused
(`accepted`), and of these only what no later one has undone: a file is there with the data last written to its path,
unless a later call has taken it or a directory above it away; a directory is there since something was made at or below
it. The store itself keeps a flat table, where directories come with what is made below them and go by their prefix.

- `get?_call`: what one accepted call does to the entry at each path;
- `standing_concat`: what stands at the end of a longer history;
- `call_spares`: what a call leaves as it was;
- `history_recalled`: what is told of every path is what the history says.
-/
import MountSpace.Proofs.Cuts
import MountSpace.Proofs.Memory.Refusals

namespace MountSpace

namespace MemoryStore

/-! ## Histories -/

/-- those of some calls, made one after the other, that the store does not refuse -/
def accepted (store : MemoryStore) : List Call → List Call
  | [] => []
  | c :: rest =>
    if (store.perform c).1 = .ok () then c :: accepted (store.call c) rest else accepted (store.call c) rest

/-- the normalised path a call is about -/
def Call.key : Call → MemoryKey
  | .insertFile _ path _ => normalize path
  | .insertDirectory _ path => normalize path
  | .remove path => normalize path
  | .setMtime path _ => normalize path

/-- the call takes away what is at a path: it takes away the path or a directory above it -/
def Call.Removes (key : MemoryKey) : Call → Prop
  | .remove path => normalize path <+: key
  | _ => False

/-- the call writes a file at a path -/
def Call.Writes (key : MemoryKey) : Call → Prop
  | .insertFile _ path _ => normalize path = key
  | _ => False

/-- the call makes a directory at a path: it makes the directory, or something below it -/
def Call.Makes (key : MemoryKey) : Call → Prop
  | .insertDirectory _ path => key <+: normalize path
  | .insertFile _ path _ => key <+: normalize path ∧ key ≠ normalize path
  | _ => False

/-- the modification time the call gives to a path -/
def Call.sets? (key : MemoryKey) : Call → Option Time
  | .setMtime path time => if normalize path = key then some time else none
  | _ => none

/-- a call of a history after which none of a kind has come, and what has come after it -/
def Standing (undone : Call → Prop) (history : List Call) (c : Call) (later : List Call) : Prop :=
  (∃ before, history = before ++ c :: later) ∧ ∀ d ∈ later, ¬ undone d

/-- the time last given to a path, or the one it began with -/
def lastSet (key : MemoryKey) (first : Time) (later : List Call) : Time :=
  ((later.filterMap (Call.sets? key)).getLast?).getD first

/-- the file that a history leaves at a path: what was written there last, unless it has been taken away since, with the
time last given to it since -/
inductive LeavesFile (history : List Call) (key : MemoryKey) : ByteArray → Attributes → Prop where
  | written {made : Time} {path : FsPath} {data : ByteArray} {later : List Call} (here : normalize path = key)
      (last : Standing (fun d => d.Writes key ∨ d.Removes key) history (.insertFile made path data) later) :
      LeavesFile history key data { Attributes.file data.size made with mtime := lastSet key made later }

/-- a history leaves a directory at a path: the root, or what has been made at or below the path and not taken away
since -/
def LeavesDirectory (history : List Call) (key : MemoryKey) : Prop :=
  key = [] ∨ ∃ c later, c.Makes key ∧ Standing (Call.Removes key) history c later

/-- what a store tells of every path is what a history has left there -/
structure Recalls (store : MemoryStore) (history : List Call) : Prop where
  file : ∀ path data attributes, LeavesFile history (normalize path) data attributes →
    store.getattr path = .ok attributes ∧
    ∀ offset size, store.read path offset size = .ok (data.extract offset (offset + size))
  directory : ∀ path, LeavesDirectory history (normalize path) ↔
    ∃ attributes, store.getattr path = .ok attributes ∧ attributes.kind = .directory
  nothing : ∀ path, (∀ data attributes, ¬ LeavesFile history (normalize path) data attributes) →
    ¬ LeavesDirectory history (normalize path) →
    store.getattr path = .error (.notFound (keyText (normalize path))) ∧
    store.readdir path = .error (.notFound (keyText (normalize path))) ∧
    ∀ offset size, store.read path offset size = .error (.notFound (keyText (normalize path)))

/-- a call leaves every entry as it was but the one it is about and, if it takes away, what lies below that -/
def Spares (store : MemoryStore) (c : Call) : Prop :=
  ∀ key entry, store.get? key = some entry → key ≠ c.key → ¬ c.Removes key → (store.call c).get? key = some entry

/-! ## One call -/

section Calls

variable {store : MemoryStore}

/-- directories made on a way are those that were missing -/
theorem get?_ensureAll_ok {now : Time} {keys : List MemoryKey} (hok : (ensureAll now keys store).1 = .ok ())
    (key : MemoryKey) : (ensureAll now keys store).2.get? key =
      if key ∈ keys then some ((store.get? key).getD (.directory (.directory now))) else store.get? key := by
  induction keys generalizing store with
  | nil => simp [ensureAll]
  | cons first rest ih =>
    rw [ensureAll] at hok ⊢
    cases hfirst : store.get? first with
    | none =>
      rw [hfirst] at hok
      simp only [ih hok, get?_insert, List.mem_cons]
      by_cases heq : key = first
      · simp [heq, hfirst]
      · simp [heq]
    | some entry =>
      cases entry with
      | file data a =>
        rw [hfirst] at hok
        cases hok
      | directory a =>
        rw [hfirst] at hok
        simp only [ih hok, List.mem_cons]
        by_cases heq : key = first
        · simp [heq, hfirst]
        · simp [heq]

theorem mem_ancestors {key other : MemoryKey} : other ∈ ancestors key ↔ other ≠ [] ∧ other <+: key ∧ other ≠ key := by
  rw [ancestors, List.mem_map]
  constructor
  · rintro ⟨n, hn, rfl⟩
    rw [List.mem_range] at hn
    refine ⟨?_, List.take_prefix _ _, ?_⟩
    · intro hnil
      have hlength := congrArg List.length hnil
      rw [List.length_take, List.length_nil] at hlength
      omega
    · intro hall
      have hlength := congrArg List.length hall
      rw [List.length_take] at hlength
      omega
  · rintro ⟨hne, hprefix, hproper⟩
    have hpos : 0 < other.length := List.length_pos_iff.2 hne
    have hlt : other.length < key.length :=
      Nat.lt_of_le_of_ne hprefix.length_le fun e => hproper (List.IsPrefix.eq_of_length hprefix e)
    refine ⟨other.length - 1, List.mem_range.2 (by omega), ?_⟩
    rw [Nat.sub_add_cancel hpos]
    exact (List.prefix_iff_eq_take.1 hprefix).symm

/-- the entry at a path after an accepted call, told by the one before it -/
def Call.turns (key : MemoryKey) (old : Option MemoryEntry) : Call → Option MemoryEntry
  | .insertFile now path data =>
    if key = normalize path then some (.file data (.file data.size now))
    else if key <+: normalize path then some (old.getD (.directory (.directory now))) else old
  | .insertDirectory now path =>
    if key <+: normalize path then some (old.getD (.directory (.directory now))) else old
  | .remove path => if normalize path <+: key then none else old
  | .setMtime path time => if key = normalize path then old.map (·.setMtime time) else old

/-- directories made above a path, where there is a root -/
theorem get?_ensureParents_ok (h : store.Tidy) {now : Time} {key : MemoryKey}
    (hok : (ensureParents now key store).1 = .ok ()) {other : MemoryKey} (hne : other ≠ key) :
    (ensureParents now key store).2.get? other =
      if other <+: key then some ((store.get? other).getD (.directory (.directory now))) else store.get? other := by
  rw [ensureParents, get?_ensureAll_ok hok]
  simp only [mem_ancestors]
  by_cases hroot : other = []
  · obtain ⟨a, ha⟩ := h.root
    simp [hroot, ha]
  · simp [hroot, hne]

/-- a file is written where there is no directory, after the directories above it have been made -/
theorem insertFile_ok {now : Time} {path : FsPath} {data : ByteArray}
    (hok : (store.insertFile now path data).1 = .ok ()) :
    (ensureParents now (normalize path) store).1 = .ok () ∧ ¬ store.HasDirectory (normalize path) ∧
      (store.insertFile now path data).2 = (ensureParents now (normalize path) store).2.insert (normalize path)
        (.file data (.file data.size now)) := by
  have hsame : (ensureParents now (normalize path) store).2.get? (normalize path) = store.get? (normalize path) :=
    get?_ensureParents now (normalize path)
  rw [insertFile] at hok ⊢
  by_cases hroot : normalize path = []
  · simp only [if_pos hroot] at hok
    cases hok
  · simp only [if_neg hroot] at hok ⊢
    generalize ensureParents now (normalize path) store = made at hok hsame ⊢
    obtain ⟨answer, next⟩ := made
    cases answer with
    | error e => cases hok
    | ok _ =>
      simp only at hok hsame ⊢
      cases hget : next.get? (normalize path) with
      | none =>
        refine ⟨trivial, ?_, rfl⟩
        rintro ⟨a, ha⟩
        rw [← hsame, hget] at ha
        cases ha
      | some entry =>
        rw [hget] at hok
        cases entry with
        | file old a =>
          refine ⟨trivial, ?_, rfl⟩
          rintro ⟨b, hb⟩
          rw [← hsame, hget] at hb
          cases hb
        | directory a => cases hok

/-- a directory is made where it is missing and left as it is where it is not, after the directories above it -/
theorem insertDirectory_ok {now : Time} {path : FsPath} (hok : (store.insertDirectory now path).1 = .ok ()) :
    (ensureParents now (normalize path) store).1 = .ok () ∧
      (store.insertDirectory now path).2.HasDirectory (normalize path) ∧
      ∀ key, (store.insertDirectory now path).2.get? key =
        if key = normalize path then some ((store.get? key).getD (.directory (.directory now)))
        else (ensureParents now (normalize path) store).2.get? key := by
  have hsame : (ensureParents now (normalize path) store).2.get? (normalize path) = store.get? (normalize path) :=
    get?_ensureParents now (normalize path)
  rw [insertDirectory] at hok ⊢
  generalize ensureParents now (normalize path) store = made at hok hsame ⊢
  obtain ⟨answer, next⟩ := made
  cases answer with
  | error e => cases hok
  | ok _ =>
    simp only at hok hsame ⊢
    cases hget : next.get? (normalize path) with
    | none =>
      refine ⟨trivial, ⟨_, by rw [get?_insert, if_pos (beq_self_eq_true _)]⟩, ?_⟩
      intro key
      by_cases heq : key = normalize path
      · rw [hget] at hsame
        simp [heq, get?_insert, ← hsame]
      · simp [heq, get?_insert]
    | some entry =>
      rw [hget] at hok
      cases entry with
      | file old a => cases hok
      | directory a =>
        refine ⟨trivial, ⟨a, hget⟩, ?_⟩
        intro key
        by_cases heq : key = normalize path
        · rw [heq, if_pos rfl, ← hsame, hget]
          rfl
        · rw [if_neg heq]

/-- **What an accepted call does to every path.** -/
theorem get?_call (h : store.Tidy) {c : Call} (hok : (store.perform c).1 = .ok ()) (key : MemoryKey) :
    (store.call c).get? key = c.turns key (store.get? key) := by
  cases c with
  | insertFile now path data =>
    obtain ⟨hparents, -, hwritten⟩ := insertFile_ok hok
    rw [call, hwritten, get?_insert]
    by_cases heq : key = normalize path
    · simp [Call.turns, heq]
    · simp [Call.turns, heq, get?_ensureParents_ok h hparents heq]
  | insertDirectory now path =>
    obtain ⟨hparents, -, hmade⟩ := insertDirectory_ok hok
    rw [call, hmade]
    by_cases heq : key = normalize path
    · simp [Call.turns, heq]
    · simp [Call.turns, heq, get?_ensureParents_ok h hparents heq]
  | remove path =>
    simp only [perform, remove] at hok
    rw [call, remove, Call.turns]
    by_cases hroot : normalize path = []
    · simp only [if_pos hroot] at hok
      cases hok
    · simp only [if_neg hroot] at hok ⊢
      cases hget : store.get? (normalize path) with
      | none =>
        rw [hget] at hok
        cases hok
      | some entry =>
        simp only [get?_erase, ← List.isPrefixOf_iff_prefix]
        cases (normalize path).isPrefixOf key <;> rfl
  | setMtime path time =>
    simp only [perform, setMtime] at hok
    rw [call, setMtime, Call.turns]
    cases hget : store.get? (normalize path) with
    | none =>
      simp only [hget] at hok
      cases hok
    | some entry =>
      simp only [get?_insert, beq_iff_eq]
      by_cases heq : key = normalize path
      · simp [heq, hget]
      · simp [heq]

/-- an entry, if there is one, that may have been given a time -/
def timed (time? : Option Time) (found : Option MemoryEntry) : Option MemoryEntry :=
  match time? with
  | some time => found.map (MemoryEntry.setMtime time)
  | none => found

/-- a call of another kind leaves the entry at a path alone, or gives it a time -/
theorem Call.turns_aside {c : Call} {key : MemoryKey} (hwrites : ¬ c.Writes key) (hmakes : ¬ c.Makes key)
    (hremoves : ¬ c.Removes key) (old : Option MemoryEntry) :
    c.turns key old = timed (c.sets? key) old := by
  cases c with
  | insertFile now path data =>
    have hne : key ≠ normalize path := fun e => hwrites e.symm
    have habove : ¬ key <+: normalize path := fun hp => hmakes ⟨hp, hne⟩
    simp [turns, timed, sets?, hne, habove]
  | insertDirectory now path =>
    have habove : ¬ key <+: normalize path := hmakes
    simp [turns, timed, sets?, habove]
  | remove path =>
    have hbelow : ¬ normalize path <+: key := hremoves
    simp [turns, timed, sets?, hbelow]
  | setMtime path time =>
    by_cases heq : key = normalize path
    · simp [turns, timed, sets?, heq]
    · have hne : normalize path ≠ key := fun e => heq e.symm
      simp [turns, timed, sets?, heq, hne]

theorem Call.turns_makes {c : Call} {key : MemoryKey} (hmakes : c.Makes key) (old : Option MemoryEntry) :
    ∃ now, c.turns key old = some (old.getD (.directory (.directory now))) := by
  cases c with
  | insertFile now path data => exact ⟨now, by rw [turns, if_neg hmakes.2, if_pos hmakes.1]⟩
  | insertDirectory now path => exact ⟨now, if_pos hmakes⟩
  | remove path => exact hmakes.elim
  | setMtime path time => exact hmakes.elim

theorem Call.turns_removes {c : Call} {key : MemoryKey} (hremoves : c.Removes key) (old : Option MemoryEntry) :
    c.turns key old = none := by
  cases c with
  | remove path => exact if_pos hremoves
  | _ => exact hremoves.elim

theorem Call.exists_of_writes {c : Call} {key : MemoryKey} (hwrites : c.Writes key) :
    ∃ now path data, c = .insertFile now path data ∧ normalize path = key := by
  cases c with
  | insertFile now path data => exact ⟨now, path, data, rfl, hwrites⟩
  | _ => exact hwrites.elim

theorem timed_eq_file {time? : Option Time} {found : Option MemoryEntry} {data : ByteArray} {a : Attributes} :
    timed time? found = some (.file data a) ↔
      ∃ b, found = some (.file data b) ∧ a = { b with mtime := time?.getD b.mtime } := by
  cases time? with
  | none => simp [timed]
  | some time =>
    rcases found with _ | ⟨_ | _⟩
    · simp [timed]
    · simp [timed, MemoryEntry.setMtime, eq_comm, and_comm]
    · simp [timed, MemoryEntry.setMtime]

theorem timed_eq_directory {time? : Option Time} {found : Option MemoryEntry} :
    (∃ a, timed time? found = some (.directory a)) ↔ ∃ a, found = some (.directory a) := by
  cases time? with
  | none => rfl
  | some time =>
    rcases found with _ | ⟨_ | _⟩
    · simp [timed]
    · simp [timed, MemoryEntry.setMtime]
    · simp [timed, MemoryEntry.setMtime]

section Accepted

variable (h : store.Tidy) {c : Call} (hok : (store.perform c).1 = .ok ()) {key : MemoryKey}
include h hok

/-- what is made is there afterwards -/
theorem hasDirectory_of_makes (hmakes : c.Makes key) : (store.call c).HasDirectory key := by
  have htidy := call_tidy h c
  cases c with
  | insertFile now path data =>
    obtain ⟨⟨rest, hrest⟩, hne⟩ := hmakes
    have hnil : rest ≠ [] := by
      rintro rfl
      exact hne (by rw [← hrest, List.append_nil])
    apply htidy.directory_above hnil
    rw [hrest, get?_call h hok]
    simp [Call.turns]
  | insertDirectory now path =>
    obtain ⟨rest, hrest⟩ := (hmakes : key <+: normalize path)
    obtain ⟨-, ⟨a, ha⟩, -⟩ := insertDirectory_ok hok
    by_cases hnil : rest = []
    · rw [hnil, List.append_nil] at hrest
      exact ⟨a, hrest ▸ ha⟩
    · refine htidy.directory_above hnil ?_
      rw [hrest]
      exact Option.isSome_of_eq_some ha
  | remove path => exact hmakes.elim
  | setMtime path time => exact hmakes.elim

/-- nothing is made in the place of a file -/
theorem not_file_of_makes (hmakes : c.Makes key) (data : ByteArray) (a : Attributes) :
    store.get? key ≠ some (.file data a) := by
  intro hfile
  obtain ⟨b, hb⟩ := hasDirectory_of_makes h hok hmakes
  obtain ⟨now, hnow⟩ := Call.turns_makes hmakes (store.get? key)
  rw [get?_call h hok, hnow, hfile] at hb
  cases hb

omit h in
/-- no file is written in the place of a directory -/
theorem not_directory_of_writes (hwrites : c.Writes key) : ¬ store.HasDirectory key := by
  cases c with
  | insertFile now path data =>
    obtain rfl := (hwrites : normalize path = key)
    exact (insertFile_ok hok).2.1
  | _ => exact hwrites.elim

/-- a file is at a path after the call if it has been written now, or if it was there before and the call has at most
given it a time -/
theorem file_call {data : ByteArray} {a : Attributes} : (store.call c).get? key = some (.file data a) ↔
    (∃ made path, c = .insertFile made path data ∧ normalize path = key ∧ a = .file data.size made) ∨
    ¬ (c.Writes key ∨ c.Removes key) ∧ ∃ b, store.get? key = some (.file data b) ∧
      a = { b with mtime := (c.sets? key).getD b.mtime } := by
  rw [get?_call h hok]
  by_cases hwrites : c.Writes key
  · obtain ⟨now, path, written, rfl, rfl⟩ := Call.exists_of_writes hwrites
    constructor
    · intro hfile
      rw [Call.turns, if_pos rfl] at hfile
      cases hfile
      exact .inl ⟨now, path, rfl, rfl, rfl⟩
    · rintro (⟨made, path', hsame, -, rfl⟩ | ⟨hkeeps, -⟩)
      · cases hsame
        exact if_pos rfl
      · exact absurd (.inl hwrites) hkeeps
  · have hnew : ¬ ∃ made path, c = .insertFile made path data ∧ normalize path = key ∧ a = .file data.size made := by
      rintro ⟨made, path, rfl, here, -⟩
      exact hwrites here
    rw [or_iff_right hnew]
    by_cases hremoves : c.Removes key
    · simp [Call.turns_removes hremoves, hremoves]
    · by_cases hmakes : c.Makes key
      · -- there was no file where a directory has been made
        obtain ⟨b, hb⟩ := hasDirectory_of_makes h hok hmakes
        rw [get?_call h hok] at hb
        simp [hb, not_file_of_makes h hok hmakes]
      · rw [Call.turns_aside hwrites hmakes hremoves, timed_eq_file]
        simp [hwrites, hremoves]

/-- a directory is at a path after the call if it has been made now, or if it was there before and has not been taken
away -/
theorem directory_call : (store.call c).HasDirectory key ↔
    key = [] ∨ c.Makes key ∨ ¬ c.Removes key ∧ store.HasDirectory key := by
  by_cases hroot : key = []
  · exact iff_of_true (hroot ▸ (call_tidy h c).root) (.inl hroot)
  · rw [or_iff_right hroot]
    by_cases hmakes : c.Makes key
    · exact iff_of_true (hasDirectory_of_makes h hok hmakes) (.inl hmakes)
    · rw [or_iff_right hmakes, HasDirectory, get?_call h hok]
      by_cases hwrites : c.Writes key
      · have hno := not_directory_of_writes hok hwrites
        obtain ⟨now, path, written, rfl, rfl⟩ := Call.exists_of_writes hwrites
        simp [Call.turns, hno]
      · by_cases hremoves : c.Removes key
        · simp [Call.turns_removes hremoves, hremoves]
        · rw [Call.turns_aside hwrites hmakes hremoves, timed_eq_directory]
          simp [hremoves, HasDirectory]

end Accepted

/-- **What a call spares.** It leaves every entry as it was but the one it is about and, if it takes away, what lies
below that. -/
theorem call_spares (h : store.Tidy) (c : Call) : store.Spares c := by
  intro key entry hentry hne hremoves
  cases hanswer : (store.perform c).1 with
  | error e =>
    rw [call_eq_perform, perform_intact h c e hanswer]
    exact hentry
  | ok _ =>
    rw [get?_call h hanswer, hentry]
    by_cases hmakes : c.Makes key
    · obtain ⟨now, hnow⟩ := Call.turns_makes hmakes (some entry)
      exact hnow
    · have hwrites : ¬ c.Writes key := by
        cases c with
        | insertFile now path data => exact fun e => hne e.symm
        | _ => exact id
      have hsets : c.sets? key = none := by
        cases c with
        | setMtime path time => exact if_neg fun e => hne e.symm
        | _ => rfl
      rw [Call.turns_aside hwrites hmakes hremoves, hsets, timed]

end Calls

/-! ## Longer histories -/

section Histories

variable {history : List Call} {key : MemoryKey}

theorem standing_concat {undone : Call → Prop} {c d : Call} {later : List Call} :
    Standing undone (history ++ [d]) c later ↔
      (c = d ∧ later = []) ∨ ∃ since, later = since ++ [d] ∧ ¬ undone d ∧ Standing undone history c since := by
  constructor
  · rintro ⟨⟨before, hcut⟩, hnone⟩
    rcases concat_eq_cut.1 hcut with ⟨-, rfl, rfl⟩ | ⟨since, rfl, hbefore⟩
    · exact .inl ⟨rfl, rfl⟩
    · refine .inr ⟨since, rfl, hnone d (by simp), ⟨before, hbefore⟩, ?_⟩
      intro e he
      exact hnone e (List.mem_append_left _ he)
  · rintro (⟨rfl, rfl⟩ | ⟨since, rfl, hd, ⟨before, hbefore⟩, hnone⟩)
    · exact ⟨⟨history, rfl⟩, by simp⟩
    · refine ⟨⟨before, concat_eq_cut.2 (.inr ⟨since, rfl, hbefore⟩)⟩, ?_⟩
      intro e he
      rcases List.mem_append.1 he with he | he
      · exact hnone e he
      · rw [List.mem_singleton.1 he]
        exact hd

theorem lastSet_concat (first : Time) (later : List Call) (d : Call) :
    lastSet key first (later ++ [d]) = (d.sets? key).getD (lastSet key first later) := by
  rw [lastSet, lastSet, List.filterMap_append]
  cases hd : d.sets? key with
  | none => simp [hd]
  | some time => simp [hd]

theorem leavesDirectory_concat {c : Call} : LeavesDirectory (history ++ [c]) key ↔
    key = [] ∨ c.Makes key ∨ ¬ c.Removes key ∧ LeavesDirectory history key := by
  constructor
  · rintro (hroot | ⟨d, later, hmakes, standing⟩)
    · exact .inl hroot
    · rcases standing_concat.1 standing with ⟨rfl, -⟩ | ⟨since, -, hkeeps, standing⟩
      · exact .inr (.inl hmakes)
      · exact .inr (.inr ⟨hkeeps, .inr ⟨d, since, hmakes, standing⟩⟩)
  · rintro (hroot | hmakes | ⟨hkeeps, hroot | ⟨d, later, hmakes, standing⟩⟩)
    · exact .inl hroot
    · exact .inr ⟨c, [], hmakes, standing_concat.2 (.inl ⟨rfl, rfl⟩)⟩
    · exact .inl hroot
    · exact .inr ⟨d, later ++ [c], hmakes, standing_concat.2 (.inr ⟨later, rfl, hkeeps, standing⟩)⟩

/-- a file is left by the last call, or it was left before and the last call has at most given it a time -/
theorem leavesFile_concat {c : Call} {data : ByteArray} {a : Attributes} : LeavesFile (history ++ [c]) key data a ↔
    (∃ made path, c = .insertFile made path data ∧ normalize path = key ∧ a = .file data.size made) ∨
    ¬ (c.Writes key ∨ c.Removes key) ∧ ∃ b, LeavesFile history key data b ∧
      a = { b with mtime := (c.sets? key).getD b.mtime } := by
  constructor
  · rintro ⟨here, last⟩
    rcases standing_concat.1 last with ⟨rfl, rfl⟩ | ⟨since, rfl, hkeeps, last⟩
    · exact .inl ⟨_, _, rfl, here, rfl⟩
    · refine .inr ⟨hkeeps, _, .written here last, ?_⟩
      rw [lastSet_concat]
  · rintro (⟨made, path, rfl, here, rfl⟩ | ⟨hkeeps, b, ⟨here, last⟩, rfl⟩)
    · exact .written here (standing_concat.2 (.inl ⟨rfl, rfl⟩))
    · have written := LeavesFile.written here (standing_concat.2 (.inr ⟨_, rfl, hkeeps, last⟩))
      rw [lastSet_concat] at written
      exact written

end Histories

/-! ## Runs of calls -/

/-- the entry at every path is what a history has left there -/
structure Matches (store : MemoryStore) (history : List Call) : Prop where
  file : ∀ key data a, store.get? key = some (.file data a) ↔ LeavesFile history key data a
  directory : ∀ key, store.HasDirectory key ↔ LeavesDirectory history key

theorem matches_empty (now : Time) : (empty now).Matches [] := by
  have hget : ∀ key, (empty now).get? key = if key = [] then some (.directory (.directory now)) else none := by
    intro key
    rw [get?, empty, List.lookup_cons]
    by_cases hkey : key = []
    · simp [hkey]
    · rw [beq_false_of_ne hkey, if_neg hkey]
      rfl
  constructor
  · intro key data a
    constructor
    · intro hfile
      rw [hget] at hfile
      split at hfile <;> cases hfile
    · rintro ⟨-, ⟨before, hcut⟩, -⟩
      simp at hcut
  · intro key
    rw [HasDirectory, hget]
    constructor
    · rintro ⟨a, ha⟩
      by_cases hkey : key = []
      · exact .inl hkey
      · rw [if_neg hkey] at ha
        cases ha
    · rintro (hkey | ⟨c, later, -, ⟨before, hcut⟩, -⟩)
      · exact ⟨_, if_pos hkey⟩
      · simp at hcut

/-- an accepted call is one call more in the history -/
theorem Matches.call {store : MemoryStore} {history : List Call} (hm : store.Matches history) (h : store.Tidy)
    {c : Call} (hok : (store.perform c).1 = .ok ()) : (store.call c).Matches (history ++ [c]) := by
  constructor
  · intro key data a
    rw [file_call h hok, leavesFile_concat]
    simp only [hm.file]
  · intro key
    rw [directory_call h hok, leavesDirectory_concat, hm.directory]

/-- a store stays in step with the history of the calls it accepts -/
theorem Matches.run {store : MemoryStore} {history : List Call} (hm : store.Matches history) (h : store.Tidy)
    (calls : List Call) : (calls.foldl MemoryStore.call store).Matches (history ++ accepted store calls) := by
  induction calls generalizing store history with
  | nil =>
    rw [accepted, List.append_nil]
    exact hm
  | cons c rest ih =>
    rw [List.foldl_cons, accepted]
    split
    · next hok =>
      have hlonger := ih (hm.call h hok) (call_tidy h c)
      rwa [List.append_assoc, List.singleton_append] at hlonger
    · next hno =>
      have hsame : store.call c = store := by
        cases hanswer : (store.perform c).1 with
        | error e => rw [call_eq_perform, perform_intact h c e hanswer]
        | ok _ => exact absurd hanswer hno
      rw [hsame]
      exact ih hm h

/-- a slice that is cut off at the end -/
theorem extract_min (data : ByteArray) (offset size : Nat) :
    data.extract (min offset data.size) (min (offset + size) data.size) = data.extract offset (offset + size) :=
  calc data.extract (min offset data.size) (min (offset + size) data.size)
    _ = data.extract offset (min (offset + size) data.size) := ByteArray.extract_eq_extract_left.2 (by omega)
    _ = data.extract offset (offset + size) := by
      apply ByteArray.ext
      rw [ByteArray.data_extract, ByteArray.data_extract, Array.extract_eq_extract_right, ByteArray.size_data]
      omega

/-- what is told of a path by a store in step with a history -/
theorem Matches.recalls {store : MemoryStore} {history : List Call} (hm : store.Matches history) (h : store.Tidy) :
    store.Recalls history := by
  constructor
  · intro path data a left
    have hget := (hm.file _ _ _).2 left
    rw [getattr, hget]
    refine ⟨rfl, ?_⟩
    intro offset size
    simp only [read, hget, extract_min]
  · intro path
    rw [← hm.directory, getattr]
    cases hget : store.get? (normalize path) with
    | none => simp [HasDirectory, hget]
    | some entry =>
      have hregular := h.regular _ _ hget
      cases entry with
      | file data a => simp [HasDirectory, hget, MemoryEntry.attributes, hregular.1]
      | directory a => simp [HasDirectory, hget, MemoryEntry.attributes, hregular.1]
  · intro path hfile hdirectory
    rw [← hm.directory] at hdirectory
    have hget : store.get? (normalize path) = none := by
      cases hget : store.get? (normalize path) with
      | none => rfl
      | some entry =>
        cases entry with
        | file data a => exact absurd ((hm.file _ _ _).1 hget) (hfile data a)
        | directory a => exact absurd ⟨a, hget⟩ hdirectory
    simp [getattr, readdir, read, hget]

/-- **A store remembers its history.** Take any calls of a new store, with any paths and refused ones among them. Of a
file that was written and not taken away since, alone or with a directory above it, the store tells the data written
last, in slices, and their length, with the time given last since. A directory is told of exactly at the root and where
something accepted has been made at or below the path and nothing has taken that away since. Of every other path nothing
is found. And the next call, whatever it is, leaves every entry as it was but the one it is about and, if it takes away,
what lies below that. -/
theorem history_recalled (now : Time) (calls : List Call) :
    (filled now calls).Recalls (accepted (empty now) calls) ∧ ∀ c, (filled now calls).Spares c := by
  have htidy := filled_tidy now calls
  have hmatches := (matches_empty now).run (tidy_empty now) calls
  exact ⟨hmatches.recalls htidy, call_spares htidy⟩

/-- what lay below a directory that was taken away does not come back with it -/
example : let store := filled 0 [.insertFile 1 (.ofString "/a/b") "x".toByteArray, .remove (.ofString "a/."),
      .insertDirectory 2 (.ofString "/b/../a")]
    (store.getattr (.ofString "/a")).toOption.map (·.kind) = some .directory ∧
      (store.getattr (.ofString "/a/b")).toOption = none := by
  constructor <;> cbv

end MemoryStore

end MountSpace

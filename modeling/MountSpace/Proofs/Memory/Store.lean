/-
A store in memory, whatever its owner has done with it. Writing makes the directories above a path first, the outermost
before the others, and taking out takes all that lies below with it. So every entry but the root lies in a directory, no
path has two entries, and the attributes of an entry tell what it is (`Tidy`); calls that fail leave it so too.

- `Tidy.insert`, `Tidy.erase`: the two ways a store changes;
- `filled_tidy`: every store that calls have filled is tidy.
-/
import MountSpace.Filesystem.Memory
import MountSpace.Proofs.Path.Contained

namespace MountSpace

namespace MemoryEntry

/-- the attributes tell what the entry is -/
def Regular : MemoryEntry → Prop
  | file data a => a.kind = .file ∧ a.size = data.size
  | directory a => a.kind = .directory ∧ a.size = 0

theorem Regular.setMtime {entry : MemoryEntry} (h : entry.Regular) (time : Time) : (entry.setMtime time).Regular := by
  cases entry with
  | file data a => exact h
  | directory a => exact h

end MemoryEntry

namespace MemoryStore

/-! ## Normalised paths -/

theorem normalizeStep_plain {key : MemoryKey} (hkey : ∀ name ∈ key, PlainBytes name) {components : List FsComponent}
    (hc : ∀ name, .normal name ∈ components → PlainBytes name) :
    ∀ name ∈ components.foldl normalizeStep key, PlainBytes name := by
  induction components generalizing key with
  | nil => exact hkey
  | cons c rest ih =>
    refine ih ?_ fun name hm => hc name (List.mem_cons_of_mem _ hm)
    cases c with
    | root => exact hkey
    | here => exact hkey
    | up => exact fun name hm => hkey name (List.dropLast_subset key hm)
    | normal last =>
      intro name hm
      rcases List.mem_append.1 hm with hm | hm
      · exact hkey name hm
      · rw [List.mem_singleton.1 hm]
        exact hc last List.mem_cons_self

theorem normalize_plain (path : FsPath) : ∀ name ∈ normalize path, PlainBytes name :=
  normalizeStep_plain (by simp) fun _ hm => (FsPath.exists_piece hm).2

/-- a valid name more is a name more -/
theorem normalize_joinName (path : FsPath) {name : String} (h : nameFault? name = none) :
    normalize (path.joinName name) = normalize path ++ [Text.encode name] := by
  rw [normalize, FsPath.components_joinName path h, List.foldl_append]
  rfl

/-! ## Tidy stores -/

/-- a directory stands at the key -/
def HasDirectory (store : MemoryStore) (key : MemoryKey) : Prop := ∃ a, store.get? key = some (.directory a)

/-- no key twice, plain names only, the root a directory, every other entry in a directory, and attributes that tell
what an entry is -/
structure Tidy (store : MemoryStore) : Prop where
  once : (store.entries.map Prod.fst).Nodup
  root : store.HasDirectory []
  inside : ∀ key, key ≠ [] → (store.get? key).isSome → store.HasDirectory key.dropLast
  plain : ∀ key, (store.get? key).isSome → ∀ name ∈ key, PlainBytes name
  regular : ∀ key entry, store.get? key = some entry → entry.Regular

theorem tidy_empty (now : Time) : (empty now).Tidy := by
  have hget : ∀ key, (empty now).get? key = if key == [] then some (.directory (.directory now)) else none := by
    intro key
    rw [get?, empty, List.lookup_cons]
    cases key == [] <;> rfl
  have hkey : ∀ key, ((empty now).get? key).isSome → key = [] := by
    intro key hsome
    rw [hget] at hsome
    split at hsome
    · next h => exact eq_of_beq h
    · cases hsome
  refine ⟨by simp [empty], ⟨_, hget []⟩, fun key hne hsome => absurd (hkey key hsome) hne, ?_, ?_⟩
  · intro key hsome
    rw [hkey key hsome]
    simp
  · intro key entry hentry
    obtain rfl := hkey key (Option.isSome_of_eq_some hentry)
    rw [hget] at hentry
    cases hentry
    exact ⟨rfl, rfl⟩

section Tidy

variable {store : MemoryStore}

theorem hasDirectory_insert {key other : MemoryKey} {entry : MemoryEntry} (h : store.HasDirectory other)
    (hstays : store.HasDirectory key → ∃ a, entry = .directory a) : (store.insert key entry).HasDirectory other := by
  rw [HasDirectory, get?_insert]
  split
  · next heq =>
    obtain rfl := eq_of_beq heq
    obtain ⟨a, rfl⟩ := hstays h
    exact ⟨a, rfl⟩
  · exact h

/-- an entry written into a directory, where a directory is not turned into a file -/
theorem Tidy.insert (h : store.Tidy) {key : MemoryKey} {entry : MemoryEntry} (hplain : ∀ name ∈ key, PlainBytes name)
    (hinside : key ≠ [] → store.HasDirectory key.dropLast) (hregular : entry.Regular)
    (hstays : store.HasDirectory key → ∃ a, entry = .directory a) : (store.insert key entry).Tidy where
  once := Table.nodup_put h.once key entry
  root := hasDirectory_insert h.root hstays
  inside := by
    intro other hne hsome
    rw [get?_insert] at hsome
    split at hsome
    · next heq =>
      obtain rfl := eq_of_beq heq
      exact hasDirectory_insert (hinside hne) hstays
    · exact hasDirectory_insert (h.inside other hne hsome) hstays
  plain := by
    intro other hsome
    rw [get?_insert] at hsome
    split at hsome
    · next heq =>
      rw [eq_of_beq heq]
      exact hplain
    · exact h.plain other hsome
  regular := by
    intro other found hfound
    rw [get?_insert] at hfound
    split at hfound
    · cases hfound
      exact hregular
    · exact h.regular other found hfound

/-- an entry taken out with all below it -/
theorem Tidy.erase (h : store.Tidy) {key : MemoryKey} (hkey : key ≠ []) : (store.erase key).Tidy := by
  have hget : ∀ {other entry}, (store.erase key).get? other = some entry ↔
      ¬ key <+: other ∧ store.get? other = some entry := by
    intro other entry
    rw [get?_erase, ← List.isPrefixOf_iff_prefix]
    cases key.isPrefixOf other <;> simp
  have hold : ∀ {other}, ((store.erase key).get? other).isSome → ¬ key <+: other ∧ (store.get? other).isSome := by
    intro other hsome
    obtain ⟨entry, hentry⟩ := Option.isSome_iff_exists.1 hsome
    exact ⟨(hget.1 hentry).1, Option.isSome_of_eq_some (hget.1 hentry).2⟩
  refine ⟨Table.nodup_filter h.once _, ?_, ?_, fun other hsome => h.plain other (hold hsome).2,
    fun other entry hentry => h.regular other entry (hget.1 hentry).2⟩
  · obtain ⟨a, ha⟩ := h.root
    exact ⟨a, hget.2 ⟨fun hp => hkey (List.prefix_nil.1 hp), ha⟩⟩
  · intro other hne hsome
    obtain ⟨hp, hpresent⟩ := hold hsome
    obtain ⟨a, ha⟩ := h.inside other hne hpresent
    exact ⟨a, hget.2 ⟨fun habove => hp (habove.trans (List.dropLast_prefix other)), ha⟩⟩

/-! ## Directories on the way -/

/-- the paths from one on along names, one for each name -/
def climb (front : MemoryKey) : List (List UInt8) → List MemoryKey
  | [] => []
  | name :: rest => (front ++ [name]) :: climb (front ++ [name]) rest

theorem climb_eq (front : MemoryKey) (names : List (List UInt8)) :
    climb front names = (List.range names.length).map fun n => front ++ names.take (n + 1) := by
  induction names generalizing front with
  | nil => rfl
  | cons name rest ih =>
    rw [climb, ih, List.length_cons, List.range_succ_eq_map, List.map_cons, List.map_map]
    simp

theorem ancestors_eq_climb (key : MemoryKey) : ancestors key = climb [] key.dropLast := by
  rw [ancestors, climb_eq, List.length_dropLast]
  refine List.map_congr_left fun n hn => ?_
  rw [List.mem_range] at hn
  rw [List.nil_append, List.dropLast_eq_take, List.take_take, Nat.min_eq_left (by omega)]

/-- what is missing along names from a directory is made in it, until a file is in the way -/
theorem ensureAll_tidy (now : Time) {front : MemoryKey} {names : List (List UInt8)}
    (hplain : ∀ name ∈ names, PlainBytes name) (h : store.Tidy) (hfront : store.HasDirectory front) :
    (ensureAll now (climb front names) store).2.Tidy ∧ ((ensureAll now (climb front names) store).1 = .ok () →
      (ensureAll now (climb front names) store).2.HasDirectory (front ++ names)) := by
  induction names generalizing front store with
  | nil => exact ⟨h, fun _ => by rw [List.append_nil]; exact hfront⟩
  | cons name rest ih =>
    rw [List.forall_mem_cons] at hplain
    have hcut : front ++ name :: rest = (front ++ [name]) ++ rest := by simp
    rw [climb, ensureAll, hcut]
    cases hget : store.get? (front ++ [name]) with
    | none =>
      have hkey : ∀ n ∈ front ++ [name], PlainBytes n := by
        intro n hn
        rcases List.mem_append.1 hn with hn | hn
        · obtain ⟨a, ha⟩ := hfront
          exact h.plain front (Option.isSome_of_eq_some ha) n hn
        · rw [List.mem_singleton.1 hn]
          exact hplain.1
      have hregular : (MemoryEntry.directory (.directory now)).Regular := ⟨rfl, rfl⟩
      have htidy := h.insert hkey (fun _ => by rw [List.dropLast_concat]; exact hfront) hregular fun _ => ⟨_, rfl⟩
      exact ih hplain.2 htidy ⟨_, by rw [get?_insert, if_pos (beq_self_eq_true _)]⟩
    | some entry =>
      cases entry with
      | file data a => exact ⟨h, fun hok => by cases hok⟩
      | directory a => exact ih hplain.2 h ⟨a, hget⟩

theorem ensureParents_tidy (now : Time) (path : FsPath) (h : store.Tidy) :
    (ensureParents now (normalize path) store).2.Tidy ∧ ((ensureParents now (normalize path) store).1 = .ok () →
      (ensureParents now (normalize path) store).2.HasDirectory (normalize path).dropLast) := by
  rw [ensureParents, ancestors_eq_climb]
  exact ensureAll_tidy now (fun name hn => normalize_plain path name (List.dropLast_subset _ hn)) h h.root

end Tidy

/-! ## Calls -/

/-- what an owner asks of a store -/
inductive Call where
  | insertFile (now : Time) (path : FsPath) (data : ByteArray)
  | insertDirectory (now : Time) (path : FsPath)
  | remove (path : FsPath)
  | setMtime (path : FsPath) (time : Time)

/-- the store after a call, whatever it answers -/
def call (store : MemoryStore) : Call → MemoryStore
  | .insertFile now path data => (store.insertFile now path data).2
  | .insertDirectory now path => (store.insertDirectory now path).2
  | .remove path => (store.remove path).2
  | .setMtime path time => (store.setMtime path time).2

/-- a new store after some calls -/
def filled (now : Time) (calls : List Call) : MemoryStore := calls.foldl call (empty now)

section Calls

variable {store : MemoryStore} (h : store.Tidy)
include h

theorem insertFile_tidy (now : Time) (path : FsPath) (data : ByteArray) : (store.insertFile now path data).2.Tidy := by
  obtain ⟨htidy, hparent⟩ := ensureParents_tidy now path h
  rw [insertFile]
  by_cases hroot : normalize path = []
  · simp only [if_pos hroot]
    exact h
  · simp only [if_neg hroot]
    generalize ensureParents now (normalize path) store = made at htidy hparent
    obtain ⟨answer, next⟩ := made
    cases answer with
    | error e => exact htidy
    | ok _ =>
      have written : ¬ next.HasDirectory (normalize path) →
          (next.insert (normalize path) (.file data (.file data.size now))).Tidy := fun hno =>
        htidy.insert (normalize_plain path) (fun _ => hparent rfl) ⟨rfl, rfl⟩ fun hdir => absurd hdir hno
      simp only
      cases hget : next.get? (normalize path) with
      | none => exact written fun ⟨a, ha⟩ => by rw [hget] at ha; cases ha
      | some entry =>
        cases entry with
        | file old a => exact written fun ⟨b, hb⟩ => by rw [hget] at hb; cases hb
        | directory a => exact htidy

theorem insertDirectory_tidy (now : Time) (path : FsPath) : (store.insertDirectory now path).2.Tidy := by
  obtain ⟨htidy, hparent⟩ := ensureParents_tidy now path h
  rw [insertDirectory]
  generalize ensureParents now (normalize path) store = made at htidy hparent
  obtain ⟨answer, next⟩ := made
  cases answer with
  | error e => exact htidy
  | ok _ =>
    simp only
    cases hget : next.get? (normalize path) with
    | none => exact htidy.insert (normalize_plain path) (fun _ => hparent rfl) ⟨rfl, rfl⟩ fun _ => ⟨_, rfl⟩
    | some entry =>
      cases entry with
      | file old a => exact htidy
      | directory a => exact htidy

theorem remove_tidy (path : FsPath) : (store.remove path).2.Tidy := by
  rw [remove]
  by_cases hroot : normalize path = []
  · simp only [if_pos hroot]
    exact h
  · simp only [if_neg hroot]
    cases store.get? (normalize path) with
    | none => exact h
    | some entry => exact h.erase hroot

theorem setMtime_tidy (path : FsPath) (time : Time) : (store.setMtime path time).2.Tidy := by
  rw [setMtime]
  cases hget : store.get? (normalize path) with
  | none => exact h
  | some entry =>
    refine h.insert (normalize_plain path) (fun hne => h.inside _ hne (Option.isSome_of_eq_some hget))
      ((h.regular _ _ hget).setMtime time) ?_
    rintro ⟨a, ha⟩
    rw [hget] at ha
    cases ha
    exact ⟨_, rfl⟩

theorem call_tidy (c : Call) : (store.call c).Tidy := by
  cases c with
  | insertFile now path data => exact insertFile_tidy h now path data
  | insertDirectory now path => exact insertDirectory_tidy h now path
  | remove path => exact remove_tidy h path
  | setMtime path time => exact setMtime_tidy h path time

end Calls

/-- **Whatever calls have filled a store, it is tidy.** -/
theorem filled_tidy (now : Time) (calls : List Call) : (filled now calls).Tidy := by
  suffices ∀ store : MemoryStore, store.Tidy → (calls.foldl call store).Tidy from this _ (tidy_empty now)
  induction calls with
  | nil => exact fun _ h => h
  | cons c rest ih => exact fun store h => ih _ (call_tidy h c)

end MemoryStore

end MountSpace

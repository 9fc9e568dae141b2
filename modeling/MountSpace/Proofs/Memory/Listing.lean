/-
Listing and look-up in a store. A listing names exactly what stands one name further on (`mem_readdir`), and a look-up of
a valid name asks for what stands one name further on. So with names that are text, the two agree (`lists_readdir`).
-/
import MountSpace.Proofs.Memory.Flat
import MountSpace.Proofs.Memory.Store
import MountSpace.Proofs.Space.Listing

namespace MountSpace.MemoryStore

section Listing

variable {store : MemoryStore} {path : FsPath} {entries : List Entry}

theorem entryIn_eq_nameIn (directory : MemoryKey) :
    entryIn directory = Flat.nameIn (fun entry => entry.attributes.kind) directory := rfl

theorem readdir_eq_ok : store.readdir path = .ok entries ↔ store.HasDirectory (normalize path) ∧
    entries = (store.entries.filterMap (entryIn (normalize path))).mergeSort fun a b => decide (a.name ≤ b.name) := by
  rw [readdir, HasDirectory]
  cases hget : store.get? (normalize path) with
  | none => simp
  | some entry =>
    cases entry with
    | file data a => simp
    | directory a => simp [eq_comm]

theorem getattr_eq_ok {a : Attributes} :
    store.getattr path = .ok a ↔ ∃ entry, store.get? (normalize path) = some entry ∧ entry.attributes = a := by
  rw [getattr]
  cases store.get? (normalize path) <;> simp

variable (h : store.Tidy) (hl : store.readdir path = .ok entries)
include h hl

theorem mem_readdir {e : Entry} : e ∈ entries ↔ ∃ name entry,
    store.get? (normalize path ++ [name]) = some entry ∧ e = ⟨Text.lossy name, entry.attributes.kind⟩ := by
  obtain ⟨-, rfl⟩ := readdir_eq_ok.1 hl
  rw [List.mem_mergeSort, entryIn_eq_nameIn]
  exact Flat.mem_namesIn h.once

variable (hw : Flat.Worded store.entries (normalize path))
include hw

theorem readdir_increasing : entries.Pairwise fun a b => a.name < b.name := by
  obtain ⟨-, rfl⟩ := readdir_eq_ok.1 hl
  rw [entryIn_eq_nameIn]
  exact Flat.listing_increasing h.once hw

/-- **A store lists what it finds.** -/
theorem lists_readdir (volume : Nat) :
    Lists (.stored volume path) entries fun name => store.getattr (path.joinName name) := by
  refine ⟨readdir_increasing h hl hw, ?_, ?_⟩
  · intro e he hname
    obtain ⟨name, entry, hget, rfl⟩ := (mem_readdir h hl).1 he
    obtain ⟨s, rfl⟩ := hw name entry hget
    rw [Text.lossy_encode] at hname ⊢
    exact ⟨entry.attributes, getattr_eq_ok.2 ⟨entry, by rw [normalize_joinName path hname, hget], rfl⟩, rfl⟩
  · intro name a hname ha
    obtain ⟨entry, hget, rfl⟩ := getattr_eq_ok.1 ha
    rw [normalize_joinName path hname] at hget
    have hlisted : (⟨name, entry.attributes.kind⟩ : Entry) ∈ entries :=
      (mem_readdir h hl).2 ⟨_, entry, hget, by rw [Text.lossy_encode]⟩
    refine ⟨_, filter_eq_singleton ?_ hlisted (beq_self_eq_true name), rfl⟩
    refine (readdir_increasing h hl hw).imp fun {a b} hlt hboth => ?_
    have heq : a.name = b.name := (eq_of_beq hboth.1).trans (eq_of_beq hboth.2).symm
    rw [heq] at hlt
    exact String.lt_irrefl b.name hlt

end Listing

/-- a store with one file in its root -/
def oneFile : MemoryStore := .filled 0 [.insertFile 0 (.ofString "/f") ⟨#[1, 2]⟩]

theorem oneFile_get? {key : MemoryKey} {entry : MemoryEntry} (h : oneFile.get? key = some entry) :
    key = [] ∨ key = [Text.encode "f"] ∧ ∃ a, entry = .file ⟨#[1, 2]⟩ a := by
  have hm := (Table.lookup_eq_some_iff (filled_tidy 0 _).once).1 h
  obtain ⟨root, file, hentries⟩ : ∃ root file, oneFile.entries =
      [([], root), ([Text.encode "f"], .file ⟨#[1, 2]⟩ file)] := ⟨_, _, rfl⟩
  have hin : (key, entry) ∈ oneFile.entries := hm
  rw [hentries, List.mem_cons, List.mem_singleton] at hin
  rcases hin with hroot | hfile
  · exact .inl (Prod.ext_iff.1 hroot).1
  · exact .inr ⟨(Prod.ext_iff.1 hfile).1, file, (Prod.ext_iff.1 hfile).2⟩

theorem oneFile_worded (directory : MemoryKey) : Flat.Worded oneFile.entries directory := by
  intro name entry h
  rcases oneFile_get? h with hroot | ⟨hfile, -⟩
  · exact absurd hroot (by simp)
  · have hcut : directory ++ [name] = [] ++ [Text.encode "f"] := hfile
    exact ⟨"f", List.singleton_inj.1 (List.append_inj' hcut rfl).2⟩

end MountSpace.MemoryStore

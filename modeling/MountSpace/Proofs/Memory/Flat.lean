/-
A tree kept flat, as a table of what stands at each path. The names in a directory are the last ones of the paths that are
one name longer, so a name is listed exactly if something stands at its path (`mem_namesIn`), and with names that are text
a sorted listing is strictly increasing (`listing_increasing`).
-/
import MountSpace.Attributes
import MountSpace.Proofs.Text.Reading
import MountSpace.Table

namespace MountSpace.Flat

variable {α : Type} {kindOf : α → FileKind} {t : Table (List (List UInt8)) α}

/-- the entry for a path in the listing of a directory -/
def nameIn (kindOf : α → FileKind) (directory : List (List UInt8)) : List (List UInt8) × α → Option Entry
  | (key, value) =>
    match key.getLast? with
    | some name => if key.dropLast = directory then some ⟨Text.lossy name, kindOf value⟩ else none
    | none => none

/-- the names in a directory are texts -/
def Worded (t : Table (List (List UInt8)) α) (directory : List (List UInt8)) : Prop :=
  ∀ name value, t.lookup (directory ++ [name]) = some value → ∃ s, name = Text.encode s

theorem nameIn_eq_some {directory key : List (List UInt8)} {value : α} {e : Entry} :
    nameIn kindOf directory (key, value) = some e ↔
      ∃ name, key = directory ++ [name] ∧ e = ⟨Text.lossy name, kindOf value⟩ := by
  rcases List.eq_nil_or_concat key with rfl | ⟨front, name, rfl⟩
  · simp [nameIn]
  · simp only [List.concat_eq_append, nameIn, List.getLast?_concat, List.dropLast_concat]
    by_cases hfront : front = directory
    · simp [hfront, eq_comm]
    · simp [hfront]

theorem mem_namesIn (hkeys : (t.map Prod.fst).Nodup) {directory : List (List UInt8)} {e : Entry} :
    e ∈ t.filterMap (nameIn kindOf directory) ↔
      ∃ name value, t.lookup (directory ++ [name]) = some value ∧ e = ⟨Text.lossy name, kindOf value⟩ := by
  rw [List.mem_filterMap]
  constructor
  · rintro ⟨⟨key, value⟩, hm, he⟩
    obtain ⟨name, rfl, rfl⟩ := nameIn_eq_some.1 he
    exact ⟨name, value, (Table.lookup_eq_some_iff hkeys).2 hm, rfl⟩
  · rintro ⟨name, value, hl, rfl⟩
    exact ⟨_, (Table.lookup_eq_some_iff hkeys).1 hl, nameIn_eq_some.2 ⟨name, rfl, rfl⟩⟩

/-- no name comes twice in a directory -/
theorem namesIn_distinct (hkeys : (t.map Prod.fst).Nodup) {directory : List (List UInt8)} (hw : Worded t directory) :
    (t.filterMap (nameIn kindOf directory)).Pairwise fun a b => a.name ≠ b.name := by
  rw [List.pairwise_filterMap]
  refine (List.pairwise_map.1 hkeys).imp_of_mem fun {p q} hp hq hne a ha b hb hname => hne ?_
  have told : ∀ {key value e}, (key, value) ∈ t → nameIn kindOf directory (key, value) = some e →
      key = directory ++ [Text.encode e.name] := by
    intro key value e hm he
    obtain ⟨name, rfl, rfl⟩ := nameIn_eq_some.1 he
    obtain ⟨s, rfl⟩ := hw name value ((Table.lookup_eq_some_iff hkeys).2 hm)
    rw [Text.lossy_encode]
  rw [told hp ha, told hq hb, hname]

/-- entries of different names are sorted strictly -/
theorem sorted_increasing {entries : List Entry} (h : entries.Pairwise fun a b => a.name ≠ b.name) :
    (entries.mergeSort fun a b => decide (a.name ≤ b.name)).Pairwise fun a b => a.name < b.name := by
  have hsorted : (entries.mergeSort fun a b => decide (a.name ≤ b.name)).Pairwise
      fun a b => decide (a.name ≤ b.name) = true := by
    refine List.pairwise_mergeSort ?_ ?_ _
    · intro a b c hab hbc
      exact decide_eq_true (String.le_trans (of_decide_eq_true hab) (of_decide_eq_true hbc))
    · intro a b
      simpa using String.le_total a.name b.name
  have hdistinct := (List.mergeSort_perm entries fun a b => decide (a.name ≤ b.name)).symm.pairwise h
    fun hne => Ne.symm hne
  exact hsorted.imp₂ (fun a b hle hne => Std.lt_of_le_of_ne (of_decide_eq_true hle) hne) hdistinct

/-- **A flat tree lists every directory in strict order.** -/
theorem listing_increasing (hkeys : (t.map Prod.fst).Nodup) {directory : List (List UInt8)} (hw : Worded t directory) :
    ((t.filterMap (nameIn kindOf directory)).mergeSort fun a b => decide (a.name ≤ b.name)).Pairwise
      fun a b => a.name < b.name :=
  sorted_increasing (namesIn_distinct hkeys hw)

/-- a strict order has one list for what is in it -/
theorem eq_of_increasing {entries others : List Entry} (h : entries.Pairwise fun a b => a.name < b.name)
    (ho : others.Pairwise fun a b => a.name < b.name) (hmem : ∀ e, e ∈ entries ↔ e ∈ others) : entries = others := by
  have once : ∀ {l : List Entry}, l.Pairwise (fun a b => a.name < b.name) → l.Nodup := by
    intro l hl
    refine hl.imp fun {a b} hlt heq => ?_
    rw [heq] at hlt
    exact String.lt_irrefl b.name hlt
  refine List.Perm.eq_of_pairwise ?_ h ho ((List.perm_ext_iff_of_nodup (once h) (once ho)).2 hmem)
  intro a b _ _ hab hba
  exact absurd (String.lt_trans hab hba) (String.lt_irrefl a.name)

end MountSpace.Flat

/-
Tables: lists of keys with their values, where a key stands at most once and keeps its place. `put` writes under a key,
a filter on keys takes out, and `lookup` reads: what was put is read back and nothing else is read differently
(`lookup_put`), and exactly the keys that pass a filter are still read (`lookup_filter`). Both keep keys apart, and with
keys apart what is read is what stands there (`lookup_eq_some_iff`).
-/

namespace MountSpace

/-- keys with their values, in the order the keys first came -/
abbrev Table (κ α : Type) := List (κ × α)

namespace Table

variable {κ α : Type} [BEq κ]

/-- a value under a key, in the place of the one the key has, or at the end -/
def put (key : κ) (value : α) : Table κ α → Table κ α
  | [] => [(key, value)]
  | (k, v) :: rest => if key == k then (key, value) :: rest else (k, v) :: put key value rest

variable [LawfulBEq κ]

theorem lookup_put (key other : κ) (value : α) (t : Table κ α) :
    (t.put key value).lookup other = if other == key then some value else t.lookup other := by
  induction t with
  | nil =>
    rw [put, List.lookup_cons]
    cases other == key <;> rfl
  | cons p rest ih =>
    obtain ⟨k, v⟩ := p
    cases hk : key == k with
    | true =>
      have e : key = k := eq_of_beq hk
      subst e
      rw [put, if_pos hk, List.lookup_cons, List.lookup_cons]
      cases other == key <;> rfl
    | false =>
      rw [put, hk, if_neg Bool.false_ne_true, List.lookup_cons, List.lookup_cons, ih]
      cases ho : other == k with
      | false => rfl
      | true =>
        have e : other = k := eq_of_beq ho
        subst e
        have hne : (other == key) = false := beq_false_of_ne fun e => by rw [e, beq_self_eq_true] at hk; cases hk
        rw [hne]
        rfl

theorem lookup_filter (keep : κ → Bool) (key : κ) (t : Table κ α) :
    List.lookup key (t.filter fun p => keep p.1) = if keep key then t.lookup key else none := by
  induction t with
  | nil => cases keep key <;> rfl
  | cons p rest ih =>
    obtain ⟨k, v⟩ := p
    rw [List.filter_cons]
    cases hk : key == k with
    | true =>
      have e : key = k := eq_of_beq hk
      subst e
      cases h : keep key with
      | true => rw [if_pos rfl, if_pos rfl, List.lookup_cons_self, List.lookup_cons_self]
      | false => rw [if_neg Bool.false_ne_true, if_neg Bool.false_ne_true, ih, h, if_neg Bool.false_ne_true]
    | false =>
      rw [List.lookup_cons, hk]
      split
      · rw [List.lookup_cons, hk, ih]
      · exact ih

/-- the keys after a write: one more at the end, unless it was there -/
theorem keys_put (key : κ) (value : α) (t : Table κ α) :
    (t.put key value).map Prod.fst = if key ∈ t.map Prod.fst then t.map Prod.fst else t.map Prod.fst ++ [key] := by
  induction t with
  | nil => rfl
  | cons p rest ih =>
    obtain ⟨k, v⟩ := p
    cases hk : key == k with
    | true =>
      obtain rfl := eq_of_beq hk
      rw [put, if_pos hk, if_pos (by simp)]
      rfl
    | false =>
      have hne : key ≠ k := fun e => by simp [e] at hk
      rw [put, hk, if_neg Bool.false_ne_true, List.map_cons, ih, List.map_cons]
      by_cases hm : key ∈ rest.map Prod.fst
      · rw [if_pos hm, if_pos (List.mem_cons_of_mem _ hm)]
      · rw [if_neg hm, if_neg (by simp [hne, hm]), List.cons_append]

/-- a write keeps keys apart -/
theorem nodup_put {t : Table κ α} (h : (t.map Prod.fst).Nodup) (key : κ) (value : α) :
    ((t.put key value).map Prod.fst).Nodup := by
  rw [keys_put]
  split
  · exact h
  · next hm =>
    refine List.nodup_append.2 ⟨h, by simp, ?_⟩
    rintro a ha b hb rfl
    exact hm (List.mem_singleton.1 hb ▸ ha)

omit [BEq κ] [LawfulBEq κ] in
/-- a filter keeps keys apart -/
theorem nodup_filter {t : Table κ α} (h : (t.map Prod.fst).Nodup) (p : κ × α → Bool) :
    ((t.filter p).map Prod.fst).Nodup :=
  h.sublist (List.filter_sublist.map Prod.fst)

/-- with keys apart, what is read is what stands there -/
theorem lookup_eq_some_iff {t : Table κ α} (h : (t.map Prod.fst).Nodup) {key : κ} {value : α} :
    t.lookup key = some value ↔ (key, value) ∈ t := by
  induction t with
  | nil => simp
  | cons p rest ih =>
    obtain ⟨k, v⟩ := p
    rw [List.map_cons, List.nodup_cons] at h
    rw [List.lookup_cons, List.mem_cons]
    cases hk : key == k with
    | true =>
      obtain rfl := eq_of_beq hk
      have hno : (key, value) ∉ rest := fun hm => h.1 (List.mem_map.2 ⟨_, hm, rfl⟩)
      simp [hno, eq_comm]
    | false =>
      have hne : key ≠ k := fun e => by simp [e] at hk
      simp [hne, ih h.2]

end Table

end MountSpace

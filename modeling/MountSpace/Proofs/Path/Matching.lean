/-
How paths are matched. Equality, order and digest of a path are computed each in its own way: equality of absolute paths
by their order, equality of relative paths name by name, the order by the first names that differ, the digest letter by
letter. All of them come down to one key, the owner and the folded names, so they agree (`matched_by_one_law`), and so
does the test whether a path starts with another: in the order the paths below one path stand in one run.

What the lower case of a character is does not matter. The results hold of paths matched under any lower case
(`Matching.under`), and the paths of this library are matched under one of them (`Matching.under_lower`).
-/
import MountSpace.Path.Basic
import Mathlib.Data.List.Forall2

namespace MountSpace

/-! ## Folded names -/

theorem foldNames_append (before later : List String) :
    foldNames (before ++ later) = foldNames before ++ foldNames later :=
  List.map_append

theorem foldNames_singleton (name : String) : foldNames [name] = [Text.fold name] := rfl

theorem length_foldNames (names : List String) : (foldNames names).length = names.length := List.length_map _

namespace AbsolutePath

theorem same_iff {a b : AbsolutePath} :
    a.same b = true ↔ a.owner = b.owner ∧ foldNames a.names = foldNames b.names := by
  rw [same, compare, beq_iff_eq, Ordering.then_eq_eq, Std.LawfulEqOrd.compare_eq_iff_eq,
    Std.LawfulEqOrd.compare_eq_iff_eq]

theorem startsWith_iff {p q : AbsolutePath} :
    p.startsWith q = true ↔ p.owner = q.owner ∧ foldNames q.names <+: foldNames p.names := by
  rw [startsWith, Bool.and_eq_true, beq_iff_eq, List.isPrefixOf_iff_prefix]

end AbsolutePath

/-! ## Lists in order -/

section Order

variable {α : Type} [Ord α] [Std.TransOrd α]

/-- a list comes before all that it is the beginning of -/
theorem isLE_append (front rest : List α) : (compare front (front ++ rest)).isLE = true := by
  induction front with
  | nil => cases rest <;> rfl
  | cons c front ih =>
    have hself : compare c c = .eq := Std.ReflCmp.compare_self
    rw [List.cons_append, List.compare_cons_cons, hself]
    exact ih

/-- between two lists with one beginning lie only lists with that beginning -/
theorem prefix_of_between [Std.LawfulEqOrd α] {front a b c : List α} (hab : (compare (front ++ a) b).isLE = true)
    (hbc : (compare b (front ++ c)).isLE = true) : front <+: b := by
  induction front generalizing b with
  | nil => exact List.nil_prefix
  | cons x front ih =>
    cases b with
    | nil =>
      rw [List.cons_append, List.compare_cons_nil] at hab
      cases hab
    | cons y b =>
      rw [List.cons_append, List.compare_cons_cons, Ordering.isLE_then_iff_or] at hab hbc
      have hxy : (compare x y).isLE = true := by
        rcases hab with h | ⟨h, -⟩ <;> rw [h] <;> rfl
      have hyx : (compare y x).isLE = true := by
        rcases hbc with h | ⟨h, -⟩ <;> rw [h] <;> rfl
      have heq : compare x y = .eq := Std.OrientedCmp.isLE_antisymm hxy hyx
      cases Std.LawfulEqOrd.eq_of_compare heq
      rw [heq] at hab hbc
      rw [List.cons_prefix_cons]
      refine ⟨rfl, ih ?_ ?_⟩
      · simpa using hab
      · simpa using hbc

end Order

/-- in an ordered list, what holds of two members and of all between them holds in one run -/
theorem filter_infix {α : Type} {le : α → α → Prop} {holds : α → Bool} {l : List α} (ordered : l.Pairwise le)
    (convex : ∀ a b c, holds a = true → holds c = true → le a b → le b c → holds b = true) :
    l.filter holds <:+: l := by
  -- behind a member of which it holds, the others of which it holds come first
  have first (a : α) (ha : holds a = true) (l : List α) (ordered : (a :: l).Pairwise le) : l.filter holds <+: l := by
    induction l with
    | nil => exact List.nil_prefix
    | cons b rest ih =>
      obtain ⟨hfirst, hrest⟩ := List.pairwise_cons.1 ordered
      obtain ⟨hb, hlater⟩ := List.pairwise_cons.1 hrest
      by_cases hholds : holds b = true
      · rw [List.filter_cons_of_pos hholds, List.cons_prefix_cons]
        refine ⟨rfl, ih (List.pairwise_cons.2 ⟨?_, hlater⟩)⟩
        intro c hc
        exact hfirst c (List.mem_cons_of_mem _ hc)
      · have hnone : rest.filter holds = [] := by
          rw [List.filter_eq_nil_iff]
          intro c hc hholds'
          exact hholds (convex a b c ha hholds' (hfirst b List.mem_cons_self) (hb c hc))
        rw [List.filter_cons_of_neg hholds, hnone]
        exact List.nil_prefix
  induction l with
  | nil => exact List.infix_rfl
  | cons a rest ih =>
    by_cases hholds : holds a = true
    · rw [List.filter_cons_of_pos hholds]
      apply List.IsPrefix.isInfix
      rw [List.cons_prefix_cons]
      exact ⟨rfl, first a hholds rest ordered⟩
    · rw [List.filter_cons_of_neg hholds]
      exact (ih (List.pairwise_cons.1 ordered).2).trans (List.suffix_cons a rest).isInfix

/-! ## Paths under a lower case -/

/-- the ways in which paths are matched -/
structure Matching where
  compare : AbsolutePath → AbsolutePath → Ordering
  same : AbsolutePath → AbsolutePath → Bool
  startsWith : AbsolutePath → AbsolutePath → Bool
  digest : AbsolutePath → List DigestItem
  sameRelative : RelativePath → RelativePath → Bool
  digestRelative : RelativePath → List DigestItem

/-- the ways in which the paths of this library are matched -/
def Matching.paths : Matching :=
  ⟨AbsolutePath.compare, AbsolutePath.same, AbsolutePath.startsWith, AbsolutePath.digest, RelativePath.same,
    RelativePath.digest⟩

section LowerCase

variable (low : Char → List Char)

/-- a name with every character in a lower case -/
def foldBy (name : String) : List Char := name.toList.flatMap low

/-- names by a lower case, the key they are matched by -/
def keysBy (names : List String) : List (List Char) := names.map (foldBy low)

/-- the order of paths under a lower case -/
def compareBy (a b : AbsolutePath) : Ordering :=
  (Ord.compare a.owner b.owner).then (Ord.compare (keysBy low a.names) (keysBy low b.names))

/-- what names feed to a hash function under a lower case -/
def digestBy (names : List String) : List DigestItem :=
  .count names.length :: names.flatMap fun name => (foldBy low name).map .letter ++ [.stop]

/-- paths matched as in this library, under another lower case -/
def Matching.under : Matching where
  compare := compareBy low
  same a b := compareBy low a b == .eq
  startsWith p start := p.owner == start.owner && (keysBy low start.names).isPrefixOf (keysBy low p.names)
  digest p := .owner p.owner :: digestBy low p.names
  sameRelative a b :=
    a.owner == b.owner && a.names.length == b.names.length &&
      (a.names.zip b.names).all fun p => foldBy low p.1 == foldBy low p.2
  digestRelative p := .owner p.owner :: digestBy low p.names

theorem Matching.under_lower : under Text.lower = paths := rfl

/-- the names are equal one by one under a lower case -/
def AlikeBy (a b : List String) : Prop := List.Forall₂ (fun x y => foldBy low x = foldBy low y) a b

/-- the paths in order, as a stable sort puts them -/
def Matching.sort (m : Matching) (l : List AbsolutePath) : List AbsolutePath :=
  l.mergeSort fun a b => (m.compare a b).isLE

/-- a list in order has equal paths side by side and every subtree in one run, and equal paths are sorted as they came -/
structure Matching.Gathers (m : Matching) : Prop where
  runs : ∀ l : List AbsolutePath, (l.Pairwise fun a b => (m.compare a b).isLE = true) → ∀ p : AbsolutePath,
    l.filter (m.same p) <:+: l ∧ l.filter (m.startsWith · p) <:+: l
  sorted : ∀ l : List AbsolutePath, (m.sort l).Perm l ∧
    ((m.sort l).Pairwise fun a b => (m.compare a b).isLE = true) ∧
      ∀ p : AbsolutePath, (m.sort l).filter (m.same p) = l.filter (m.same p)

/-- equality, order and digest are one law: that of owners and of names equal one by one under a lower case -/
structure Matching.OneLaw (m : Matching) (low : Char → List Char) : Prop where
  reflexive : ∀ a, m.compare a a = .eq
  turned : ∀ a b, m.compare b a = (m.compare a b).swap
  transitive : ∀ a b c, (m.compare a b).isLE = true → (m.compare b c).isLE = true → (m.compare a c).isLE = true
  total : ∀ a b, (m.compare a b).isLE = true ∨ (m.compare b a).isLE = true
  antisymmetric : ∀ a b, (m.compare a b).isLE = true → (m.compare b a).isLE = true → m.same a b = true
  /-- the order is one of the classes of equal paths -/
  classes : ∀ a a' b b', m.same a a' = true → m.same b b' = true → m.compare a b = m.compare a' b'
  same : ∀ a b, m.same a b = true ↔ a.owner = b.owner ∧ AlikeBy low a.names b.names
  sameRelative : ∀ a b, m.sameRelative a b = true ↔ a.owner = b.owner ∧ AlikeBy low a.names b.names
  digest : ∀ a b, m.digest a = m.digest b ↔ m.same a b = true
  digestRelative : ∀ a b, m.digestRelative a = m.digestRelative b ↔ m.sameRelative a b = true
  /-- a path comes before all that start with it -/
  start : ∀ a p, m.startsWith a p = true → (m.compare p a).isLE = true
  /-- what lies between two paths that start with a third starts with it too -/
  between : ∀ a b c p, m.startsWith a p = true → m.startsWith c p = true → (m.compare a b).isLE = true →
    (m.compare b c).isLE = true → m.startsWith b p = true
  gathers : m.Gathers

/-! ## One key -/

theorem keysBy_eq_iff {a b : List String} : keysBy low a = keysBy low b ↔ AlikeBy low a b := by
  rw [AlikeBy, ← List.forall₂_map_left_iff (f := foldBy low) (R := fun x y => x = foldBy low y),
    ← List.forall₂_map_right_iff (f := foldBy low) (R := fun x y => x = y), List.forall₂_eq_eq_eq]
  rfl

instance : Std.TransCmp (compareBy low) :=
  inferInstanceAs (Std.TransCmp (compareLex (compareOn AbsolutePath.owner) (compareOn fun p => keysBy low p.names)))

theorem compareBy_eq {a b : AbsolutePath} :
    compareBy low a b = .eq ↔ a.owner = b.owner ∧ keysBy low a.names = keysBy low b.names := by
  rw [compareBy, Ordering.then_eq_eq, Std.LawfulEqOrd.compare_eq_iff_eq, Std.LawfulEqOrd.compare_eq_iff_eq]

/-- a stop ends the letters of a name, whatever follows -/
theorem letters_inj {s t : List Char} {a b : List DigestItem}
    (h : s.map .letter ++ .stop :: a = t.map .letter ++ .stop :: b) : s = t ∧ a = b := by
  induction s generalizing t with
  | nil =>
    cases t with
    | nil => exact ⟨rfl, (List.cons.inj h).2⟩
    | cons d t => cases (List.cons.inj h).1
  | cons c s ih =>
    cases t with
    | nil => cases (List.cons.inj h).1
    | cons d t =>
      obtain ⟨hletter, hrest⟩ := List.cons.inj h
      obtain ⟨rfl, hab⟩ := ih hrest
      cases hletter
      exact ⟨rfl, hab⟩

theorem digestBy_eq {a b : List String} : digestBy low a = digestBy low b ↔ keysBy low a = keysBy low b := by
  constructor
  · intro h
    have hitems := (List.cons.inj h).2
    clear h
    induction a generalizing b with
    | nil =>
      cases b with
      | nil => rfl
      | cons y b => simp at hitems
    | cons x a ih =>
      cases b with
      | nil => simp at hitems
      | cons y b =>
        simp only [List.flatMap_cons, List.append_assoc, List.singleton_append] at hitems
        obtain ⟨hname, hrest⟩ := letters_inj hitems
        rw [keysBy, keysBy, List.map_cons, List.map_cons, hname]
        exact congrArg _ (ih hrest)
  · intro h
    have hitems (names : List String) : digestBy low names =
        .count (keysBy low names).length :: (keysBy low names).flatMap fun key => key.map .letter ++ [.stop] := by
      simp [digestBy, keysBy, List.flatMap_map]
    rw [hitems, hitems, h]

theorem startsWithBy_iff {p start : AbsolutePath} : (Matching.under low).startsWith p start = true ↔
    p.owner = start.owner ∧ keysBy low start.names <+: keysBy low p.names := by
  simp [Matching.under]

theorem isLE_of_startsWithBy {a p : AbsolutePath} (h : (Matching.under low).startsWith a p = true) :
    (compareBy low p a).isLE = true := by
  obtain ⟨howner, rest, hkey⟩ := (startsWithBy_iff low).1 h
  have hfirst : compare p.owner a.owner = .eq := Std.LawfulEqOrd.compare_eq_iff_eq.2 howner.symm
  rw [compareBy, hfirst, ← hkey]
  exact isLE_append _ rest

theorem startsWithBy_between {a b c p : AbsolutePath} (ha : (Matching.under low).startsWith a p = true)
    (hc : (Matching.under low).startsWith c p = true) (hab : (compareBy low a b).isLE = true)
    (hbc : (compareBy low b c).isLE = true) : (Matching.under low).startsWith b p = true := by
  obtain ⟨haowner, more, hakey⟩ := (startsWithBy_iff low).1 ha
  obtain ⟨hcowner, rest, hckey⟩ := (startsWithBy_iff low).1 hc
  rw [compareBy, Ordering.isLE_then_iff_or] at hab hbc
  have hup : (compare p.owner b.owner).isLE = true := by
    rw [← haowner]
    rcases hab with h | ⟨h, -⟩ <;> rw [h] <;> rfl
  have hdown : (compare b.owner p.owner).isLE = true := by
    rw [← hcowner]
    rcases hbc with h | ⟨h, -⟩ <;> rw [h] <;> rfl
  have howner : b.owner = p.owner :=
    Std.LawfulEqOrd.eq_of_compare (Std.OrientedCmp.isLE_antisymm hdown hup)
  have hself : compare p.owner p.owner = .eq := Std.ReflCmp.compare_self
  rw [haowner, howner, hself, ← hakey] at hab
  rw [howner, hcowner, hself, ← hckey] at hbc
  refine (startsWithBy_iff low).2 ⟨howner, prefix_of_between (a := more) (c := rest) ?_ ?_⟩
  · simpa using hab
  · simpa using hbc

theorem sameBy_iff {a b : AbsolutePath} : (Matching.under low).same a b = true ↔ compareBy low a b = .eq := by
  rw [Matching.under, beq_iff_eq]

theorem transBy (a b c : AbsolutePath) (hab : (compareBy low a b).isLE = true) (hbc : (compareBy low b c).isLE = true) :
    (compareBy low a c).isLE = true :=
  Std.TransCmp.isLE_trans hab hbc

theorem totalBy (a b : AbsolutePath) : ((compareBy low a b).isLE || (compareBy low b a).isLE) = true := by
  have hswap : compareBy low b a = (compareBy low a b).swap := Std.OrientedCmp.eq_swap
  rw [hswap]
  cases compareBy low a b <;> rfl

/-- two paths equal to a third have all paths between them equal to it -/
theorem sameBy_between {a b c p : AbsolutePath} (ha : compareBy low p a = .eq) (hc : compareBy low p c = .eq)
    (hab : (compareBy low a b).isLE = true) (hbc : (compareBy low b c).isLE = true) : compareBy low p b = .eq := by
  apply Std.OrientedCmp.isLE_antisymm
  · rw [Std.TransCmp.congr_left ha]
    exact hab
  · rw [Std.TransCmp.congr_right hc]
    exact hbc

/-- paths equal to one path are in order already, so sorting leaves them as they came -/
theorem sort_filter_same (l : List AbsolutePath) (p : AbsolutePath) :
    ((Matching.under low).sort l).filter ((Matching.under low).same p) = l.filter ((Matching.under low).same p) := by
  have hequal : (l.filter ((Matching.under low).same p)).Pairwise fun a b => (compareBy low a b).isLE = true := by
    apply List.pairwise_of_forall_mem_list
    intro a ha b hb
    have hpa := (sameBy_iff low).1 (List.mem_filter.1 ha).2
    have hpb := (sameBy_iff low).1 (List.mem_filter.1 hb).2
    rw [← Std.TransCmp.congr_left hpa, hpb]
    rfl
  have hsub := (List.sublist_mergeSort (transBy low) (totalBy low) hequal List.filter_sublist).filter
    ((Matching.under low).same p)
  rw [List.filter_filter] at hsub
  simp only [Bool.and_self] at hsub
  have hperm := (List.mergeSort_perm l fun a b => (compareBy low a b).isLE).filter ((Matching.under low).same p)
  exact (hsub.eq_of_length hperm.length_eq.symm).symm

theorem gathers_under : (Matching.under low).Gathers where
  runs := by
    intro l ordered p
    constructor
    · apply filter_infix ordered
      intro a b c ha hc hab hbc
      rw [sameBy_iff] at ha hc ⊢
      exact sameBy_between low ha hc hab hbc
    · apply filter_infix ordered
      intro a b c ha hc hab hbc
      exact startsWithBy_between low ha hc hab hbc
  sorted := by
    intro l
    exact ⟨List.mergeSort_perm l _, List.pairwise_mergeSort (transBy low) (totalBy low) l, sort_filter_same low l⟩

theorem sameRelativeBy_iff {a b : RelativePath} : (Matching.under low).sameRelative a b = true ↔
    a.owner = b.owner ∧ AlikeBy low a.names b.names := by
  rw [AlikeBy, List.forall₂_iff_zip]
  simp [Matching.under, and_assoc]

theorem digestItems_iff {owner owner' : NamespaceId} {a b : List String} :
    DigestItem.owner owner :: digestBy low a = .owner owner' :: digestBy low b ↔ owner = owner' ∧ AlikeBy low a b := by
  rw [List.cons.injEq, DigestItem.owner.injEq, digestBy_eq, keysBy_eq_iff]

theorem oneLaw_under : (Matching.under low).OneLaw low where
  reflexive := by
    intro a
    show compareBy low a a = .eq
    exact Std.ReflCmp.compare_self
  turned := by
    intro a b
    show compareBy low b a = (compareBy low a b).swap
    exact Std.OrientedCmp.eq_swap
  transitive := transBy low
  total := by
    intro a b
    rw [← Bool.or_eq_true]
    exact totalBy low a b
  antisymmetric := by
    intro a b hab hba
    exact (sameBy_iff low).2 (Std.OrientedCmp.isLE_antisymm hab hba)
  classes := by
    intro a a' b b' ha hb
    rw [sameBy_iff] at ha hb
    calc compareBy low a b
      _ = compareBy low a' b := Std.TransCmp.congr_left ha
      _ = compareBy low a' b' := Std.TransCmp.congr_right hb
  same := by
    intro a b
    rw [sameBy_iff, compareBy_eq, keysBy_eq_iff]
  sameRelative := fun a b => sameRelativeBy_iff low
  digest := by
    intro a b
    rw [sameBy_iff, compareBy_eq, keysBy_eq_iff]
    exact digestItems_iff low
  digestRelative := by
    intro a b
    rw [sameRelativeBy_iff]
    exact digestItems_iff low
  start := fun a p h => isLE_of_startsWithBy low h
  between := fun a b c p => startsWithBy_between low
  gathers := gathers_under low

end LowerCase

/-- **Equality, order and digest of paths are one law**, that of the owner and of the names equal one by one with case
folded away; and they would be under any other lower case of characters. -/
theorem matched_by_one_law :
    Matching.paths.OneLaw Text.lower ∧ ∀ low : Char → List Char, (Matching.under low).OneLaw low := by
  constructor
  · rw [← Matching.under_lower]
    exact oneLaw_under Text.lower
  · exact oneLaw_under

/-- equal paths stay as they came, with what lies below them right behind -/
example : Matching.paths.sort [⟨1, ["a.b"]⟩, ⟨1, ["A", "z"]⟩, ⟨1, ["b"]⟩, ⟨1, ["a"]⟩, ⟨1, ["A"]⟩] =
    [⟨1, ["a"]⟩, ⟨1, ["A"]⟩, ⟨1, ["A", "z"]⟩, ⟨1, ["a.b"]⟩, ⟨1, ["b"]⟩] := by
  cbv

end MountSpace

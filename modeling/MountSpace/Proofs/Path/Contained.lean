/-
A name read from a path. A text is a single component wherever it is joined exactly if its bytes hold no separator, are
not empty and are no run of dots that counts as a step (`plainBytes_encode_iff`); every valid name is one. The join of
such a text has exactly one component more (`components_joinName`).

Components, not texts, are compared when one path is stripped off another: what is left has the components that come
after those taken off, however it is written (`components_stripPrefix`). So the containment asked for at the boundary of
a mount holds for every valid name (`containedJoin_of_name`), and of all texts for the single components alone.

Main result: `contained_iff_single`.
-/
import MountSpace.Filesystem.FsPath
import MountSpace.Path.Name
import Mathlib.Data.List.Basic

namespace MountSpace

/-! ## The bytes of a name -/

namespace Text

theorem encode_eq_flatMap (s : String) : encode s = s.toList.flatMap String.utf8EncodeChar := by
  unfold encode
  rw [← String.utf8Encode_toList]
  simp [List.utf8Encode]

theorem encode_injective {a b : String} (h : encode a = encode b) : a = b :=
  String.toByteArray_inj.1 (ByteArray.ext (Array.toList_inj.1 h))

/-- a byte below 0x80 is a character of its own, never a part of a longer one -/
theorem ascii_of_mem_encodeChar {c : Char} {b : UInt8} (hm : b ∈ String.utf8EncodeChar c) (hb : b.toNat < 0x80) :
    c.toNat = b.toNat := by
  have hc : c.val.toNat = c.toNat := rfl
  have wide : ∀ n, b = UInt8.ofNat n → 0x80 ≤ n → n < 0x100 → False := by
    intro n hn hlow hhigh
    rw [hn, UInt8.toNat_ofNat'] at hb
    omega
  unfold String.utf8EncodeChar at hm
  simp only [hc] at hm
  split_ifs at hm with h1 h2 h3
  · rw [List.mem_singleton] at hm
    rw [hm, UInt8.toNat_ofNat']
    omega
  all_goals
    simp only [List.mem_cons, List.not_mem_nil, or_false] at hm
  · rcases hm with h | h
    · exact (wide _ h (by omega) (by omega)).elim
    · exact (wide _ h (by omega) (by omega)).elim
  · rcases hm with h | h | h
    · exact (wide _ h (by omega) (by omega)).elim
    · exact (wide _ h (by omega) (by omega)).elim
    · exact (wide _ h (by omega) (by omega)).elim
  · rcases hm with h | h | h | h
    · exact (wide _ h (by omega) (by omega)).elim
    · exact (wide _ h (by omega) (by omega)).elim
    · exact (wide _ h (by omega) (by omega)).elim
    · exact (wide _ h (by omega) (by omega)).elim

end Text

/-! ## Valid names -/

theorem checkName_ok_iff {name : String} : checkName name = .ok () ↔ nameFault? name = none := by
  rw [checkName]
  cases nameFault? name <;> simp

theorem checkNames_eq_ok {names : List String} : checkNames names = .ok () ↔ ∀ n ∈ names, nameFault? n = none := by
  induction names with
  | nil => simp [checkNames]
  | cons name rest ih =>
    rw [checkNames, checkName, List.forall_mem_cons]
    cases hf : nameFault? name with
    | some fault => simp
    | none => simp [ih]

/-- the bytes of a valid name: something, no step, and no separator -/
structure PlainBytes (name : List UInt8) : Prop where
  notBlank : FsPath.component? name = some (.normal name)
  noSlash : FsPath.slash ∉ name

/-- a text that is one component wherever it is joined: something, without a separator, and neither one dot nor two -/
structure SinglePart (name : String) : Prop where
  someText : name ≠ ""
  noSeparator : '/' ∉ name.toList
  noStep : name ≠ "." ∧ name ≠ ".."

theorem slash_mem_encode_iff {name : String} : FsPath.slash ∈ Text.encode name ↔ '/' ∈ name.toList := by
  rw [Text.encode_eq_flatMap, List.mem_flatMap]
  constructor
  · rintro ⟨c, hc, hb⟩
    have hn := Text.ascii_of_mem_encodeChar hb (by decide)
    rwa [← Char.toNat_inj.1 (hn.trans (by decide : FsPath.slash.toNat = ('/').toNat))]
  · intro h
    exact ⟨'/', h, by decide⟩

/-- the bytes of a text are plain exactly if it is a single component -/
theorem plainBytes_encode_iff {name : String} : PlainBytes (Text.encode name) ↔ SinglePart name := by
  have spelled (text : String) : Text.encode name = Text.encode text ↔ name = text :=
    ⟨Text.encode_injective, congrArg Text.encode⟩
  have nothing : Text.encode name = [] ↔ name = "" := spelled ""
  have one : Text.encode name = [FsPath.dot] ↔ name = "." := spelled "."
  have two : Text.encode name = [FsPath.dot, FsPath.dot] ↔ name = ".." := spelled ".."
  constructor
  · rintro ⟨hblank, hslash⟩
    refine ⟨?_, fun hm => hslash (slash_mem_encode_iff.2 hm), ?_, ?_⟩
    · intro h
      simp [FsPath.component?, nothing.2 h] at hblank
    · intro h
      simp [FsPath.component?, one.2 h] at hblank
    · intro h
      simp [FsPath.component?, two.2 h, FsPath.dot] at hblank
  · rintro ⟨hsome, hsep, hone, htwo⟩
    refine ⟨?_, fun hm => hsep (slash_mem_encode_iff.1 hm)⟩
    rw [FsPath.component?, if_neg (by rw [nothing, one]; exact not_or.2 ⟨hsome, hone⟩), if_neg (by rw [two]; exact htwo)]

theorem singlePart_of_name {name : String} (h : nameFault? name = none) : SinglePart name := by
  have faulty : ∀ text : String, nameFault? text ≠ none → name ≠ text := by
    rintro text ht rfl
    exact ht h
  refine ⟨faulty "" (by decide), fun hm => ?_, faulty "." (by decide), faulty ".." (by decide)⟩
  unfold nameFault? at h
  split at h
  all_goals first | cases h | simp_all

theorem plainBytes_encode {name : String} (h : nameFault? name = none) : PlainBytes (Text.encode name) :=
  plainBytes_encode_iff.2 (singlePart_of_name h)

/-! ## Components of a longer path -/

theorem Text.split_append_cons {α : Type} [DecidableEq α] (sep : α) (l r : List α) :
    Text.split sep (l ++ sep :: r) = Text.split sep l ++ Text.split sep r := by
  induction l with
  | nil => simp [Text.split]
  | cons c rest ih =>
    rw [List.cons_append, Text.split, Text.split, ih]
    split
    · rfl
    · cases hs : Text.split sep rest with
      | nil => exact absurd hs (Text.split_ne_nil sep rest)
      | cons piece pieces => rfl

theorem Text.noSlash_of_mem_split {α : Type} [DecidableEq α] {sep : α} {l piece : List α}
    (h : piece ∈ Text.split sep l) : sep ∉ piece := by
  induction l generalizing piece with
  | nil =>
    rw [Text.split, List.mem_singleton] at h
    simp [h]
  | cons c rest ih =>
    rw [Text.split] at h
    split at h
    · rcases List.mem_cons.1 h with rfl | h
      · simp
      · exact ih h
    · next hc =>
      split at h
      · rw [List.mem_singleton] at h
        simp [h, Ne.symm hc]
      · next first more hs =>
        rcases List.mem_cons.1 h with rfl | h
        · have hfirst : sep ∉ first := ih (by simp [hs])
          simp [hfirst, Ne.symm hc]
        · exact ih (by simp [hs, h])

theorem plainBytes_of_piece {piece : List UInt8} (hslash : FsPath.slash ∉ piece)
    (hblank : ¬ (piece = [] ∨ piece = [FsPath.dot])) (hup : piece ≠ [FsPath.dot, FsPath.dot]) : PlainBytes piece :=
  ⟨by rw [FsPath.component?, if_neg hblank, if_neg hup], hslash⟩

namespace FsPath

/-- a name among the components of a path is one of its pieces, and plain -/
theorem exists_piece {p : FsPath} {name : List UInt8} (h : .normal name ∈ p.components) :
    name ∈ Text.split slash p.bytes ∧ PlainBytes name := by
  have hpiece : ∃ piece ∈ Text.split slash p.bytes, component? piece = some (.normal name) := by
    unfold components at h
    simp only at h
    split_ifs at h
    all_goals simpa using h
  obtain ⟨piece, hm, hc⟩ := hpiece
  have hsame : piece = name := by
    unfold component? at hc
    split_ifs at hc
    · cases hc
    · exact FsComponent.normal.inj (Option.some.inj hc)
  rw [hsame] at hm hc
  exact ⟨hm, hc, Text.noSlash_of_mem_split hm⟩

theorem head?_split_append (l : List UInt8) (pieces : List (List UInt8)) :
    (Text.split slash l ++ pieces).head? = (Text.split slash l).head? := by
  cases hs : Text.split slash l with
  | nil => exact absurd hs (Text.split_ne_nil slash l)
  | cons piece rest => rfl

/-- the components of what follows a separator come after those before it -/
theorem components_append_slash (l r : List UInt8) :
    components ⟨l ++ slash :: r⟩ = components ⟨l ++ [slash]⟩ ++ (Text.split slash r).filterMap component? := by
  have hhead : (l ++ slash :: r).head? = (l ++ [slash]).head? := by cases l <;> rfl
  have hblank : [([] : List UInt8)].filterMap component? = [] := by simp [component?]
  have hfirst := head?_split_append l
  simp only [components, isRooted, Text.split_append_cons, List.filterMap_append, hhead, hfirst,
    show Text.split slash ([] : List UInt8) = [[]] from rfl, hblank, List.append_nil]
  split_ifs <;> simp

/-- a separator at the end of a path counts for nothing -/
theorem components_trailing_slash {l : List UInt8} (h : l ≠ []) : components ⟨l ++ [slash]⟩ = components ⟨l⟩ := by
  have hblank : [([] : List UInt8)].filterMap component? = [] := by simp [component?]
  have hhead : (l ++ [slash]).head? = l.head? := by
    cases l with
    | nil => exact absurd rfl h
    | cons b rest => rfl
  simp only [components, isRooted, Text.split_append_cons, List.filterMap_append, hhead, head?_split_append l,
    show Text.split slash ([] : List UInt8) = [[]] from rfl, hblank, List.append_nil]

theorem components_join_plain (base : FsPath) {name : List UInt8} (h : PlainBytes name) :
    (base.join ⟨name⟩).components = base.components ++ [.normal name] := by
  have hsplit : Text.split slash name = [name] := Text.split_piece slash h.noSlash
  have hroot : isRooted ⟨name⟩ = false := by
    cases name with
    | nil => rfl
    | cons b rest =>
      have : b ≠ slash := fun hb => h.noSlash (by simp [hb])
      simpa [isRooted] using this
  have hone : ([name].filterMap component?) = [.normal name] := by simp [h.notBlank]
  unfold join
  rw [hroot]
  simp only [Bool.false_eq_true, if_false]
  split_ifs with hend
  · rcases hend with hnil | hlast
    · have hdot : name ≠ [dot] := fun hd => by have := h.notBlank; simp [hd, component?] at this
      simp only [hnil, List.nil_append, components, hsplit, hroot, hone]
      simp [isRooted, hnil, hdot, Text.split, component?]
    · obtain ⟨front, hfront⟩ := List.getLast?_eq_some_iff.1 hlast
      have hb : base = ⟨front ++ [slash]⟩ := by rw [← hfront]
      rw [hb]
      show components ⟨front ++ [slash] ++ name⟩ = _
      rw [List.append_assoc, List.singleton_append, components_append_slash, hsplit, hone]
  · rw [not_or] at hend
    rw [components_append_slash, components_trailing_slash hend.1, hsplit, hone]

/-- a valid name is one component more, wherever it is joined -/
theorem components_joinName (base : FsPath) {name : String} (h : nameFault? name = none) :
    (base.joinName name).components = base.components ++ [.normal (Text.encode name)] :=
  components_join_plain base (plainBytes_encode h)

/-- the join of a text has that text as its one component more exactly if the text is a single component -/
theorem components_joinName_iff (base : FsPath) (name : String) :
    (base.joinName name).components = base.components ++ [.normal (Text.encode name)] ↔ SinglePart name := by
  constructor
  · intro h
    have hm : .normal (Text.encode name) ∈ (base.joinName name).components := by rw [h]; simp
    exact plainBytes_encode_iff.1 (exists_piece hm).2
  · intro h
    exact components_join_plain base (plainBytes_encode_iff.2 h)

/-! ## Paths of plain names -/

theorem split_ofNames {names : List (List UInt8)} (hplain : ∀ name ∈ names, PlainBytes name) :
    Text.split slash (ofNames names).bytes = [] :: if names = [] then [[]] else names := by
  rw [ofNames, Text.split, if_pos rfl]
  split_ifs with hnil
  · rw [hnil]
    rfl
  · rw [Text.split_join slash hnil fun name hn => (hplain name hn).noSlash]

theorem components_ofNames {names : List (List UInt8)} (hplain : ∀ name ∈ names, PlainBytes name) :
    (ofNames names).components = .root :: names.map .normal := by
  have hblank : component? [] = none := rfl
  have hpieces : names.filterMap component? = names.map .normal :=
    List.filterMap_eq_map_iff_forall_eq_some.2 fun name hn => (hplain name hn).notBlank
  rw [components, split_ofNames hplain, if_pos (show (ofNames names).isRooted = true from rfl)]
  split_ifs with hnil
  · simp [hnil, hblank]
  · simp [hblank, hpieces]

/-! ## What is left of a path -/

theorem filterMap_dropBlank (pieces : List (List UInt8)) :
    (dropBlank pieces).filterMap component? = pieces.filterMap component? := by
  unfold dropBlank
  induction pieces with
  | nil => rfl
  | cons first rest ih =>
    rw [List.dropWhile_cons]
    split
    · next hblank => rw [ih, List.filterMap_cons, Option.isNone_iff_eq_none.1 hblank]
    · rfl

theorem filterMap_trimBlank (pieces : List (List UInt8)) :
    (trimBlank pieces).filterMap component? = pieces.filterMap component? := by
  rw [trimBlank, List.filterMap_reverse, filterMap_dropBlank, List.filterMap_reverse, List.reverse_reverse]

theorem dropBlank_isSuffixOf (pieces : List (List UInt8)) : dropBlank pieces <:+ pieces := List.dropWhile_suffix _

theorem trimBlank_isPrefixOf (pieces : List (List UInt8)) : trimBlank pieces <+: pieces := by
  rw [trimBlank, ← List.reverse_suffix, List.reverse_reverse]
  exact dropBlank_isSuffixOf _

theorem component?_head_dropBlank {pieces : List (List UInt8)} {first : List UInt8}
    (h : (dropBlank pieces).head? = some first) : component? first ≠ none := by
  have hnot := List.head?_dropWhile_not (fun piece => (component? piece).isNone) pieces
  rw [show List.dropWhile _ _ = dropBlank pieces from rfl, h] at hnot
  exact Option.isSome_iff_ne_none.1 (Option.isNone_eq_false_iff.1 hnot)

theorem piecesAfter_isSuffixOf (n : Nat) (pieces : List (List UInt8)) : piecesAfter n pieces <:+ pieces := by
  induction n generalizing pieces with
  | zero => exact dropBlank_isSuffixOf pieces
  | succ n ih => exact (ih _).trans ((List.tail_suffix _).trans (dropBlank_isSuffixOf pieces))

theorem component?_head_piecesAfter {n : Nat} {pieces : List (List UInt8)} {first : List UInt8}
    (h : (piecesAfter n pieces).head? = some first) : component? first ≠ none := by
  induction n generalizing pieces with
  | zero => exact component?_head_dropBlank h
  | succ n ih => exact ih h

theorem head?_trimBlank {pieces : List (List UInt8)} {first : List UInt8}
    (h : (trimBlank pieces).head? = some first) : pieces.head? = some first := by
  obtain ⟨back, hback⟩ := trimBlank_isPrefixOf pieces
  rw [← hback, List.head?_append, h]
  rfl

/-- the components of the pieces after some components are the later components -/
theorem filterMap_piecesAfter (n : Nat) (pieces : List (List UInt8)) :
    (piecesAfter n pieces).filterMap component? = (pieces.filterMap component?).drop n := by
  induction n generalizing pieces with
  | zero => exact filterMap_dropBlank pieces
  | succ n ih =>
    rw [piecesAfter, ih, ← filterMap_dropBlank pieces]
    cases hd : dropBlank pieces with
    | nil => simp
    | cons first rest =>
      have hfirst : component? first ≠ none := component?_head_dropBlank (by rw [hd]; rfl)
      obtain ⟨c, hc⟩ := Option.ne_none_iff_exists'.1 hfirst
      rw [List.filterMap_cons_some hc, List.tail_cons, List.drop_succ_cons]

/-- a path begins with a separator exactly if its first piece is empty and not the only one -/
theorem isRooted_iff_pieces {p : FsPath} {first : List UInt8} {more : List (List UInt8)}
    (hs : Text.split slash p.bytes = first :: more) : p.isRooted = true ↔ first = [] ∧ more ≠ [] := by
  have hbytes : p.bytes = Text.join slash (first :: more) := by rw [← hs, Text.join_split]
  have hnoSlash : slash ∉ first := Text.noSlash_of_mem_split (l := p.bytes) (by simp [hs])
  rw [isRooted, hbytes]
  cases first with
  | nil => cases more <;> simp [Text.join]
  | cons byte bytes =>
    have hbyte : byte ≠ slash := fun hb => hnoSlash (by simp [hb])
    cases more <;> simpa [Text.join] using hbyte

/-- pieces that begin with a component are not read as a root or a dot -/
theorem components_of_pieces {pieces : List (List UInt8)} (hslash : ∀ piece ∈ pieces, slash ∉ piece)
    (hhead : ∀ first, pieces.head? = some first → component? first ≠ none) :
    components ⟨Text.join slash pieces⟩ = pieces.filterMap component? := by
  cases pieces with
  | nil => rfl
  | cons first rest =>
    have hfirst := hhead first rfl
    have hsplit : Text.split slash (Text.join slash (first :: rest)) = first :: rest :=
      Text.split_join slash (List.cons_ne_nil _ _) hslash
    have hroot : ¬ isRooted ⟨Text.join slash (first :: rest)⟩ = true := by
      rw [isRooted_iff_pieces hsplit]
      rintro ⟨rfl, -⟩
      exact hfirst rfl
    have hdot : (first :: rest).head? ≠ some [dot] := by
      intro h
      rw [Option.some.inj h] at hfirst
      exact hfirst rfl
    simp only [components, hsplit, if_neg hroot, if_neg hdot]

theorem filterMap_split_join {pieces : List (List UInt8)} (hslash : ∀ piece ∈ pieces, slash ∉ piece) :
    (Text.split slash (Text.join slash pieces)).filterMap component? = pieces.filterMap component? := by
  cases pieces with
  | nil => rfl
  | cons first rest => rw [Text.split_join slash (List.cons_ne_nil _ _) hslash]

/-- the components of a path: as many as its lead, and those of its pieces -/
theorem components_eq (p : FsPath) : ∃ front, front.length = p.lead ∧
    p.components = front ++ (Text.split slash p.bytes).filterMap component? := by
  unfold lead components
  simp only
  split_ifs
  · exact ⟨[.root], rfl, rfl⟩
  · exact ⟨[.here], rfl, rfl⟩
  · exact ⟨[], rfl, rfl⟩

theorem components_trimEnd (p : FsPath) : p.trimEnd.components = p.components := by
  unfold trimEnd
  cases hs : Text.split slash p.bytes with
  | nil => rfl
  | cons first more =>
    have hnoSlash : ∀ piece ∈ first :: more, slash ∉ piece := by
      rw [← hs]
      exact fun piece => Text.noSlash_of_mem_split
    have hkept : ∀ piece ∈ first :: trimBlank more, slash ∉ piece := by
      intro piece hm
      refine hnoSlash piece ?_
      rcases List.mem_cons.1 hm with rfl | hm
      · exact List.mem_cons_self
      · exact List.mem_cons_of_mem _ ((trimBlank_isPrefixOf more).subset hm)
    by_cases hp : p.isRooted = true
    · obtain ⟨rfl, hmore⟩ := (isRooted_iff_pieces hs).1 hp
      have hroot : isRooted ⟨slash :: Text.join slash (trimBlank more)⟩ = true := rfl
      have hrest := filterMap_split_join fun piece hm => hkept piece (List.mem_cons_of_mem _ hm)
      simp only [components, if_pos hp, if_pos hroot, hs, Text.split, if_true, List.filterMap_cons, hrest,
        filterMap_trimBlank]
    · have hsplit : Text.split slash (Text.join slash (first :: trimBlank more)) = first :: trimBlank more :=
        Text.split_join slash (List.cons_ne_nil _ _) hkept
      have hroot : ¬ isRooted ⟨Text.join slash (first :: trimBlank more)⟩ = true := by
        rw [isRooted_iff_pieces hsplit]
        rintro ⟨rfl, hne⟩
        refine hp ((isRooted_iff_pieces hs).2 ⟨rfl, ?_⟩)
        rintro rfl
        exact hne rfl
      simp only [components, if_neg hp, if_neg hroot, hs, hsplit, List.head?_cons, List.filterMap_cons,
        filterMap_trimBlank]

/-- what is left after some components, the lead among them, has the later components -/
theorem components_rest (p : FsPath) {n : Nat} (hlead : p.lead ≤ n) :
    components ⟨Text.join slash (trimBlank (piecesAfter (n - p.lead) (Text.split slash p.bytes)))⟩ =
      p.components.drop n := by
  obtain ⟨front, hfront, hp⟩ := p.components_eq
  rw [components_of_pieces, filterMap_trimBlank, filterMap_piecesAfter, hp, List.drop_append, hfront,
    List.drop_eq_nil_of_le (show front.length ≤ n by omega), List.nil_append]
  · intro piece hm
    exact Text.noSlash_of_mem_split ((piecesAfter_isSuffixOf _ _).subset ((trimBlank_isPrefixOf _).subset hm))
  · intro first hfirst
    exact component?_head_piecesAfter (head?_trimBlank hfirst)

/-- **What is left of a path has the components after those taken off.** -/
theorem components_stripPrefix {p start rest : FsPath} (h : p.stripPrefix? start = some rest) :
    p.components = start.components ++ rest.components := by
  unfold stripPrefix? at h
  split at h
  · next hstarts =>
    obtain ⟨later, hlater⟩ := List.isPrefixOf_iff_prefix.1 hstarts
    cases hn : start.components.length with
    | zero =>
      rw [hn] at h
      cases h
      rw [components_trimEnd, List.eq_nil_of_length_eq_zero hn, List.nil_append]
    | succ n =>
      rw [hn] at h
      cases h
      have hlead : p.lead ≤ n + 1 := by
        unfold lead
        split_ifs <;> omega
      rw [components_rest p hlead, ← hlater, ← hn, List.drop_left]
  · cases h

theorem stripPrefix_eq_none {p start : FsPath} : p.stripPrefix? start = none ↔ ¬ start.components <+: p.components := by
  rw [← List.isPrefixOf_iff_prefix, stripPrefix?, startsWith]
  split
  · next h =>
    refine iff_of_false ?_ (not_not_intro h)
    split <;> exact Option.some_ne_none _
  · next h => exact iff_of_true rfl h

theorem root_notMem_pieces (pieces : List (List UInt8)) : .root ∉ pieces.filterMap component? := by
  rw [List.mem_filterMap]
  rintro ⟨piece, -, hpiece⟩
  unfold component? at hpiece
  split_ifs at hpiece <;> cases hpiece

theorem startsWith_rootPath (p : FsPath) : p.startsWith rootPath = p.isRooted := by
  rw [startsWith, show rootPath.components = [.root] from rfl, components]
  have hnot := root_notMem_pieces (Text.split slash p.bytes)
  cases p.isRooted with
  | true => rfl
  | false =>
    simp only [Bool.false_eq_true, if_false]
    split_ifs
    · rfl
    · cases hc : (Text.split slash p.bytes).filterMap component? with
      | nil => rfl
      | cons c rest =>
        have hne : c ≠ .root := by
          rintro rfl
          rw [hc] at hnot
          exact hnot List.mem_cons_self
        simp [List.isPrefixOf, hne.symm]

/-- a path without its root is what is left of it after the root alone, if it has one -/
theorem withoutRoot_eq_stripPrefix (p : FsPath) : p.withoutRoot = (p.stripPrefix? rootPath).getD p := by
  rw [withoutRoot, stripPrefix?, startsWith_rootPath, show rootPath.components.length = 0 + 1 from rfl]
  split
  · next hp => rw [lead, if_pos hp]; rfl
  · rfl

/-- the containment asked for, by components alone -/
theorem containedJoin_eq (base : FsPath) (name : String) : base.containedJoin name =
    if (base.joinName name).components = base.components ++ [.normal (Text.encode name)] then some (base.joinName name)
    else none := by
  unfold containedJoin
  simp only
  cases hrest : (base.joinName name).stripPrefix? base with
  | none =>
    have hnot : ¬ base.components <+: (base.joinName name).components := stripPrefix_eq_none.1 hrest
    rw [if_neg fun h => hnot ⟨_, h.symm⟩]
  | some rest => simp only [components_stripPrefix hrest, List.append_cancel_left_eq]

/-- **No valid name is refused at the boundary of a mount.** -/
theorem containedJoin_of_name (base : FsPath) {name : String} (h : nameFault? name = none) :
    base.containedJoin name = some (base.joinName name) := by
  rw [containedJoin_eq]
  exact if_pos (components_joinName base h)

/-- **The containment asked for holds of the single components alone.** A text is accepted exactly if it is something
without a separator and neither one dot nor two; the answer is the joined path, which then has that text as its one
component more, and otherwise has other components. -/
theorem contained_iff_single (base : FsPath) (name : String) :
    (∀ joined, base.containedJoin name = some joined ↔ SinglePart name ∧ joined = base.joinName name) ∧
      ((base.joinName name).components = base.components ++ [.normal (Text.encode name)] ↔ SinglePart name) := by
  have honly := components_joinName_iff base name
  refine ⟨fun joined => ?_, honly⟩
  rw [containedJoin_eq]
  by_cases h : SinglePart name
  · rw [if_pos (honly.2 h), Option.some.injEq, and_iff_right h, eq_comm]
  · rw [if_neg fun hc => h (honly.1 hc)]
    constructor
    · intro hj
      cases hj
    · intro hs
      exact absurd hs.1 h

example : (ofString "a//./b/").containedJoin "..." = some (ofString "a//./b/...") := by decide

end FsPath

end MountSpace

/-
One name further in a view. Pieces that say nothing, empty ones and single dots, may stand anywhere on a path: a walk that
comes to an end does so without them (`walk_said`), and where it goes on from its end does not depend on them
(`walk_onward`). So a name more behind a path is asked of the directory that the path leads to, however the path is
written (`keyIn_join_plain`), and with a byte of zero it is not asked at all.
-/
import MountSpace.Proofs.Host.Rooted

namespace MountSpace

namespace FsPath

/-! ## Pieces that say something -/

/-- the pieces that are a step -/
def said (pieces : List (List UInt8)) : List (List UInt8) := pieces.filter fun piece => (component? piece).isSome

theorem said_append (before later : List (List UInt8)) : said (before ++ later) = said before ++ said later :=
  List.filter_append before later

theorem said_said (pieces : List (List UInt8)) : said (said pieces) = said pieces := by
  simp [said, List.filter_filter]

theorem said_of_blank {pieces : List (List UInt8)} (h : ∀ piece ∈ pieces, component? piece = none) :
    said pieces = [] :=
  List.filter_eq_nil_iff.2 fun piece hm => by simp [h piece hm]

theorem said_cons_blank {piece : List UInt8} (h : piece = [] ∨ piece = [dot]) (rest : List (List UInt8)) :
    said (piece :: rest) = said rest := by
  rw [said, List.filter_cons_of_neg (by simp [component?, h])]
  rfl

theorem said_cons_step {piece : List UInt8} (h : ¬ (piece = [] ∨ piece = [dot])) (rest : List (List UInt8)) :
    said (piece :: rest) = piece :: said rest := by
  rw [said, List.filter_cons_of_pos]
  · rfl
  · rw [component?, if_neg h]
    split <;> rfl

theorem said_singleton {name : List UInt8} (h : PlainBytes name) : said [name] = [name] := by
  simp [said, h.notBlank]

/-- without its root a path says the same -/
theorem said_withoutRoot (p : FsPath) :
    said (Text.split slash p.withoutRoot.bytes) = said (Text.split slash p.bytes) := by
  cases hp : p.isRooted with
  | false => rw [withoutRoot, hp]; rfl
  | true =>
    obtain ⟨front, inner, back, hblanks, hsplit, hinner, -⟩ := withoutRoot_pieces hp
    rw [List.forall_mem_append] at hblanks
    rw [hsplit, hinner, said_append, said_append, said_of_blank hblanks.1, said_of_blank hblanks.2, List.nil_append,
      List.append_nil]
    split_ifs with hnil
    · rw [hnil]
      rfl
    · rfl

/-- joined paths say one after the other -/
theorem said_join {root inner : FsPath} (hroot : root.isRooted = true) (hinner : inner.isRooted = false) :
    ∃ front, Text.split slash (root.join inner).bytes = front ++ Text.split slash inner.bytes ∧
      said front = said (Text.split slash root.bytes) := by
  rcases join_eq hroot hinner with ⟨front, hfront, hjoin⟩ | hjoin
  · refine ⟨Text.split slash front, by rw [hjoin, Text.split_append_cons], ?_⟩
    have hends : Text.split slash root.bytes = Text.split slash front ++ [[]] := by
      rw [hfront, Text.split_append_cons]
      rfl
    have hlast : said [[]] = [] := said_of_blank (by simp [component?])
    rw [hends, said_append, hlast, List.append_nil]
  · exact ⟨Text.split slash root.bytes, by rw [hjoin, Text.split_append_cons], rfl⟩

/-- a path that ends in a name ends in it without its root -/
theorem split_withoutRoot_last {p : FsPath} (hp : p.isRooted = true) {front : List (List UInt8)} {name : List UInt8}
    (hname : PlainBytes name) (hsplit : Text.split slash p.bytes = front ++ [name]) :
    ∃ front, Text.split slash p.withoutRoot.bytes = front ++ [name] := by
  obtain ⟨blanks, inner, back, hblanks, hcut, hinner, -⟩ := withoutRoot_pieces hp
  rw [List.forall_mem_append] at hblanks
  have hsome : component? name ≠ none := by
    rw [hname.notBlank]
    exact Option.some_ne_none _
  have hlast : (blanks ++ (inner ++ back)).getLast? = some name := by
    rw [← hcut, hsplit, List.getLast?_concat]
  have hback : back = [] := by
    by_contra hne
    rw [List.getLast?_append_of_ne_nil _ (by simp [hne]), List.getLast?_append_of_ne_nil _ hne] at hlast
    exact hsome (hblanks.2 name (List.mem_of_getLast? hlast))
  rw [hback, List.append_nil] at hlast
  have hne : inner ≠ [] := by
    rintro rfl
    rw [List.append_nil] at hlast
    exact hsome (hblanks.1 name (List.mem_of_getLast? hlast))
  rw [List.getLast?_append_of_ne_nil _ hne] at hlast
  obtain ⟨before, hbefore⟩ := List.getLast?_eq_some_iff.1 hlast
  exact ⟨before, by rw [hinner, if_neg hne, hbefore]⟩

/-- a name more behind a path of a view comes last, after all that the path says -/
theorem split_join_plain {root path : FsPath} (hroot : root.isRooted = true) (hpath : path.isRooted = true)
    {name : List UInt8} (hname : PlainBytes name) : ∃ front,
    Text.split slash (root.join (path.join ⟨name⟩).withoutRoot).bytes = front ++ [name] ∧
      said front = said (Text.split slash (root.join path.withoutRoot).bytes) := by
  have hplain : isRooted ⟨name⟩ = false := by
    cases hn : name with
    | nil => rfl
    | cons first more =>
      have hne : first ≠ slash := fun hs => hname.noSlash (by simp [hn, hs])
      simpa [isRooted] using hne
  have hpiece : Text.split slash name = [name] := Text.split_piece slash hname.noSlash
  obtain ⟨before, hbefore, hsaid⟩ := said_join hpath hplain
  rw [hpiece] at hbefore
  obtain ⟨inner, hinner⟩ := split_withoutRoot_last (isRooted_join hpath _) hname hbefore
  obtain ⟨front, hfront, hfrontSaid⟩ := said_join hroot ((path.join ⟨name⟩).withoutRoot_bytes).1
  obtain ⟨first, hfirst, hfirstSaid⟩ := said_join hroot path.withoutRoot_bytes.1
  have hinnerSaid : said inner = said (Text.split slash path.bytes) := by
    have htwice := said_withoutRoot (path.join ⟨name⟩)
    rw [hinner, hbefore, said_append, said_append, said_singleton hname, hsaid] at htwice
    exact List.append_cancel_right htwice
  refine ⟨front ++ inner, by rw [hfront, hinner, List.append_assoc], ?_⟩
  rw [hfirst, said_append, said_append, hfrontSaid, hfirstSaid, hinnerSaid, said_withoutRoot]

/-- a zero byte is in a piece that is a step -/
theorem zero_mem_iff (p : FsPath) : 0 ∈ p.bytes ↔ ∃ piece ∈ said (Text.split slash p.bytes), 0 ∈ piece := by
  constructor
  · intro h
    rw [← Text.join_split slash p.bytes] at h
    rcases Text.mem_join h with hslash | ⟨piece, hm, h0⟩
    · exact absurd hslash (by decide)
    · refine ⟨piece, List.mem_filter.2 ⟨hm, ?_⟩, h0⟩
      have hstep : ¬ (piece = [] ∨ piece = [dot]) := by
        rintro (rfl | rfl)
        · cases h0
        · exact absurd (List.mem_singleton.1 h0) (by decide)
      rw [component?, if_neg hstep]
      split <;> rfl
  · rintro ⟨piece, hm, h0⟩
    exact Text.mem_of_mem_piece (List.mem_filter.1 hm).1 h0

end FsPath

namespace Host

open FsPath (said)

/-! ## Walks -/

section Walk

variable {host : Host} {stepwise : Bool} {key : HostKey} {name : List UInt8}

/-- a walk that comes to an end does so without what says nothing -/
theorem walk_said {links : Nat} {here : HostKey} {pieces : List (List UInt8)} (before : List (List UInt8))
    (h : host.walk stepwise links here (before ++ pieces) = .ok key) :
    host.walk stepwise links here (before ++ said pieces) = .ok key := by
  induction pieces generalizing before with
  | nil => exact h
  | cons piece rest ih =>
    by_cases hblank : piece = [] ∨ piece = [FsPath.dot]
    · rw [FsPath.said_cons_blank hblank]
      have hnone : ∀ p ∈ [piece], FsPath.component? p = none := by
        intro p hp
        rw [List.mem_singleton.1 hp, FsPath.component?_of_blank hblank]
      have hcut : host.walk stepwise links here (before ++ ([piece] ++ rest)) = .ok key := h
      exact ih before (walk_without hnone hcut)
    · rw [FsPath.said_cons_step hblank, List.append_cons]
      rw [List.append_cons] at h
      exact ih (before ++ [piece]) h

/-- what needs a directory with a name at the end needs one by what is said before -/
theorem needsDirectory_said {pieces : List (List UInt8)} (hname : PlainBytes name)
    (h : needsDirectory (pieces ++ [name]) = true) : needsDirectory (said pieces) = true := by
  induction pieces with
  | nil => simp [needsDirectory, hname.notBlank] at h
  | cons piece rest ih =>
    by_cases hblank : piece = [] ∨ piece = [FsPath.dot]
    · rw [FsPath.said_cons_blank hblank]
      refine ih ?_
      simpa [needsDirectory, FsPath.component?_of_blank hblank] using h
    · rw [FsPath.said_cons_step hblank]
      obtain ⟨component, hcomponent⟩ := Option.ne_none_iff_exists'.1 fun hc => hblank (FsPath.blank_of_component? hc)
      simpa [needsDirectory, hcomponent] using h

/-- **A walk goes on from where what has been said leads**, whatever says nothing on the way. -/
theorem walk_onward {links : Nat} {here : HostKey} {pieces : List (List UInt8)} (hname : PlainBytes name)
    (h : host.walk stepwise links here (said pieces) = .ok key) :
    ∃ left, host.walk stepwise links here (pieces ++ [name]) = host.walk stepwise left key [name] := by
  match pieces with
  | [] =>
    rw [said, List.filter_nil, walk] at h
    cases h
    exact ⟨links, rfl⟩
  | piece :: rest =>
    by_cases hblank : piece = [] ∨ piece = [FsPath.dot]
    · rw [FsPath.said_cons_blank hblank] at h
      rw [List.cons_append, walk_cons_blank (FsPath.component?_of_blank hblank) (by simp)]
      exact walk_onward hname h
    · rw [FsPath.said_cons_step hblank] at h
      obtain ⟨hnear, hnext⟩ := walk_cons_ok h
      have hmore : host.asking here (piece :: (rest ++ [name])) ≤ host.asking here (piece :: said rest) :=
        asking_mono (fun hc => hblank (FsPath.blank_of_component? hc)) (needsDirectory_said hname)
      rw [List.cons_append, walk, if_neg fun hfar => hnear ⟨hfar.1, Nat.le_trans hfar.2 hmore⟩]
      rcases hnext with ⟨there, hstep, hrest⟩ | ⟨target, left, hstep, hlinks, hrest⟩
      · rw [hstep]
        exact walk_onward hname hrest
      · -- the pieces of the target are left as they stand in what has been said
        have hsaid : host.walk stepwise left (linkBase here target)
            (said (Text.split FsPath.slash target.bytes ++ said rest)) = .ok key := walk_said [] hrest
        rw [FsPath.said_append, FsPath.said_said, ← FsPath.said_append] at hsaid
        rw [hstep, hlinks]
        simp only
        rw [← List.append_assoc]
        exact walk_onward hname hsaid
termination_by (links, pieces.length)

/-- a name asked of a place: it is too far down or too long, or something stands there or nothing, or the place is no
directory -/
theorem walk_plain (hname : PlainBytes name) {entry : HostEntry} (hkey : host.get? key = some entry)
    (hnolink : ∀ target mtime, host.get? (key ++ [name]) ≠ some (.link target mtime)) (left : Nat) :
    host.walk true left key [name] =
      if pathLimit ≤ (FsPath.ofNames (key ++ [name])).bytes.length then .error .nameTooLong
      else if entry.kind = .directory then
        if nameLimit < name.length then .error .nameTooLong
        else if (host.get? (key ++ [name])).isSome then .ok (key ++ [name]) else .error .noEntry
      else .error .notDirectory := by
  rw [walk, asking_plain hname (by simp)]
  simp only [true_and]
  congr 1
  cases entry with
  | file data mtime => simp [step, hkey, HostEntry.kind]
  | link target mtime => simp [step, hkey, HostEntry.kind]
  | directory mtime =>
    rw [step_plain hkey hname]
    simp only [HostEntry.kind, if_true]
    by_cases hlong : nameLimit < name.length
    · simp only [if_pos hlong]
    · simp only [if_neg hlong]
      cases hget : host.get? (key ++ [name]) with
      | none => simp
      | some found =>
        cases found with
        | link target t => exact absurd hget (hnolink target t)
        | file data t => simp [walk]
        | directory t => simp [walk]

end Walk

/-! ## Views -/

/-- what a path says leads to what calls with it are about, on the root of the view too -/
theorem walk_leads {host : Host} {root path : FsPath} {base key : HostKey} (h : host.Rooted root base)
    (hk : if path.withoutRoot.bytes = [] then key = base else host.keyIn root path = .ok key) :
    0 ∉ (root.join path.withoutRoot).bytes ∧
      host.walk true linkLimit [] (said (Text.split FsPath.slash (root.join path.withoutRoot).bytes)) = .ok key := by
  split_ifs at hk with hnothing
  · obtain ⟨hzero, hwalk⟩ := (canonical_rooted h.isRooted).1 h.leads
    obtain ⟨front, hsplit, hsaid⟩ := FsPath.said_join h.isRooted path.withoutRoot_bytes.1
    have hblank : said (Text.split FsPath.slash path.withoutRoot.bytes) = [] := by
      rw [hnothing]
      exact FsPath.said_of_blank (by simp [Text.split, FsPath.component?])
    rw [FsPath.zero_mem_iff] at hzero ⊢
    rw [hsplit, FsPath.said_append, hsaid, hblank, List.append_nil, hk]
    exact ⟨hzero, walk_said [] hwalk⟩
  · obtain ⟨hzero, hwalk⟩ := (canonical_rooted (FsPath.isRooted_join h.isRooted _)).1 hk
    exact ⟨hzero, walk_said [] hwalk⟩

/-- **A name more behind a path of a view** is asked of the place that the path leads to. -/
theorem keyIn_join_plain {host : Host} {root path : FsPath} {base key : HostKey} (h : host.Rooted root base)
    (hpath : path.isRooted = true)
    (hk : if path.withoutRoot.bytes = [] then key = base else host.keyIn root path = .ok key) {name : List UInt8}
    (hname : PlainBytes name) : ∃ left, host.keyIn root (path.join ⟨name⟩) =
      if 0 ∈ name then .error .zeroByte else host.walk true left key [name] := by
  obtain ⟨front, hsplit, hsaid⟩ := FsPath.split_join_plain h.isRooted hpath hname
  obtain ⟨hzero, hfront⟩ := walk_leads h hk
  rw [← hsaid] at hfront
  obtain ⟨left, hleft⟩ := walk_onward hname hfront
  refine ⟨left, ?_⟩
  have hbytes : 0 ∈ (root.join (path.join ⟨name⟩).withoutRoot).bytes ↔ 0 ∈ name := by
    rw [FsPath.zero_mem_iff] at hzero ⊢
    rw [hsplit, FsPath.said_append, FsPath.said_singleton hname, hsaid]
    constructor
    · rintro ⟨piece, hm, h0⟩
      rcases List.mem_append.1 hm with hm | hm
      · exact absurd ⟨piece, hm, h0⟩ hzero
      · rwa [List.mem_singleton.1 hm] at h0
    · exact fun h0 => ⟨name, by simp, h0⟩
  rw [keyIn, canonical, follow, if_pos (FsPath.isRooted_join h.isRooted _), hsplit, hleft]
  simp only [hbytes]

end Host

end MountSpace

/-
The bytes of a text read back. Every character is encoded in one to four bytes, the first of which tells how many; the
second one's range depends on the first. What is read from the bytes of a text is that text, also where broken bytes
would be replaced (`lossy_encode`).
-/
import MountSpace.Proofs.Path.Contained

namespace MountSpace.Text

/-- the second byte of a character, in numbers -/
theorem isSecond_iff (first b : UInt8) : isSecond first b = true ↔
    0x80 ≤ b.toNat ∧ b.toNat ≤ 0xbf ∧ (first.toNat = 0xe0 → 0xa0 ≤ b.toNat) ∧ (first.toNat = 0xed → b.toNat ≤ 0x9f) ∧
      (first.toNat = 0xf0 → 0x90 ≤ b.toNat) ∧ (first.toNat = 0xf4 → b.toNat ≤ 0x8f) := by
  unfold isSecond isTail
  simp only [beq_iff_eq, ← UInt8.toNat_inj, UInt8.reduceToNat]
  split_ifs <;> simp only [Bool.and_eq_true, decide_eq_true_eq, UInt8.le_iff_toNat_le, UInt8.reduceToNat] <;> omega

theorem isTail_iff (b : UInt8) : isTail b = true ↔ 0x80 ≤ b.toNat ∧ b.toNat ≤ 0xbf := by
  simp only [isTail, Bool.and_eq_true, decide_eq_true_eq, UInt8.le_iff_toNat_le, UInt8.reduceToNat]

theorem charWidth_one {first : UInt8} (h : first.toNat < 0x80) : charWidth first = some 1 :=
  if_pos (UInt8.lt_iff_toNat_lt.2 h)

theorem charWidth_two {first : UInt8} (h : 0xc2 ≤ first.toNat ∧ first.toNat ≤ 0xdf) : charWidth first = some 2 := by
  simp only [charWidth, UInt8.lt_iff_toNat_lt, UInt8.le_iff_toNat_le, UInt8.reduceToNat]
  rw [if_neg (by omega), if_pos h]

theorem charWidth_three {first : UInt8} (h : 0xe0 ≤ first.toNat ∧ first.toNat ≤ 0xef) : charWidth first = some 3 := by
  simp only [charWidth, UInt8.lt_iff_toNat_lt, UInt8.le_iff_toNat_le, UInt8.reduceToNat]
  rw [if_neg (by omega), if_neg (by omega), if_pos h]

theorem charWidth_four {first : UInt8} (h : 0xf0 ≤ first.toNat ∧ first.toNat ≤ 0xf4) : charWidth first = some 4 := by
  simp only [charWidth, UInt8.lt_iff_toNat_lt, UInt8.le_iff_toNat_le, UInt8.reduceToNat]
  rw [if_neg (by omega), if_neg (by omega), if_neg (by omega), if_pos h]

/-! ## One character -/

section Widths

variable {first b c d : UInt8} (rest : List UInt8)

theorem firstChar_two (hw : charWidth first = some 2) (hb : isSecond first b = true) :
    firstChar first (b :: rest) = (some (Char.ofNat (first.toNat % 32 * 64 + b.toNat % 64)), 1) := by
  simp only [firstChar, hw, hb, if_true, addTail]

theorem firstChar_three (hw : charWidth first = some 3) (hb : isSecond first b = true) (hc : isTail c = true) :
    firstChar first (b :: c :: rest) =
      (some (Char.ofNat ((first.toNat % 16 * 64 + b.toNat % 64) * 64 + c.toNat % 64)), 2) := by
  simp only [firstChar, hw, hb, hc, Bool.not_true, Bool.false_eq_true, if_false, addTail]

theorem firstChar_four (hw : charWidth first = some 4) (hb : isSecond first b = true) (hc : isTail c = true)
    (hd : isTail d = true) : firstChar first (b :: c :: d :: rest) =
      (some (Char.ofNat (((first.toNat % 8 * 64 + b.toNat % 64) * 64 + c.toNat % 64) * 64 + d.toNat % 64)), 3) := by
  simp only [firstChar, hw, hb, hc, hd, Bool.not_true, Bool.false_eq_true, if_false, addTail]

end Widths

/-- the bytes of a character are read as that character, whatever follows -/
theorem firstChar_encodeChar (c : Char) (rest : List UInt8) : ∃ first more,
    String.utf8EncodeChar c = first :: more ∧ firstChar first (more ++ rest) = (some c, more.length) := by
  have hval : c.val.toNat = c.toNat := rfl
  have hrange : c.toNat < 0xd800 ∨ 0xdfff < c.toNat ∧ c.toNat < 0x110000 := c.valid
  have small : ∀ n, n < 256 → (UInt8.ofNat n).toNat = n := by
    intro n hn
    rw [UInt8.toNat_ofNat', Nat.mod_eq_of_lt hn]
  unfold String.utf8EncodeChar
  simp only [hval]
  split_ifs with h1 h2 h3
  · refine ⟨_, [], rfl, ?_⟩
    have hw : charWidth (UInt8.ofNat c.toNat) = some 1 := charWidth_one (by rw [small _ (by omega)]; omega)
    simp only [firstChar, hw, small c.toNat (by omega), Char.ofNat_toNat, List.length_nil]
  · refine ⟨_, [_], rfl, ?_⟩
    have hfirst := small (c.toNat / 64 % 32 + 192) (by omega)
    have hb := small (c.toNat % 64 + 128) (by omega)
    rw [List.singleton_append, firstChar_two rest (charWidth_two (by omega)) ((isSecond_iff _ _).2 (by omega)), hfirst,
      hb, List.length_singleton]
    have hnumber : (c.toNat / 64 % 32 + 192) % 32 * 64 + (c.toNat % 64 + 128) % 64 = c.toNat := by omega
    rw [hnumber, Char.ofNat_toNat]
  · refine ⟨_, [_, _], rfl, ?_⟩
    have hfirst := small (c.toNat / 4096 % 16 + 224) (by omega)
    have hb := small (c.toNat / 64 % 64 + 128) (by omega)
    have hc := small (c.toNat % 64 + 128) (by omega)
    rw [List.cons_append, List.singleton_append, firstChar_three rest (charWidth_three (by omega))
      ((isSecond_iff _ _).2 (by omega)) ((isTail_iff _).2 (by omega)), hfirst, hb, hc]
    have hnumber : ((c.toNat / 4096 % 16 + 224) % 16 * 64 + (c.toNat / 64 % 64 + 128) % 64) * 64 +
        (c.toNat % 64 + 128) % 64 = c.toNat := by omega
    rw [hnumber, Char.ofNat_toNat]
    rfl
  · refine ⟨_, [_, _, _], rfl, ?_⟩
    have hfirst := small (c.toNat / 262144 % 8 + 240) (by omega)
    have hb := small (c.toNat / 4096 % 64 + 128) (by omega)
    have hc := small (c.toNat / 64 % 64 + 128) (by omega)
    have hd := small (c.toNat % 64 + 128) (by omega)
    rw [List.cons_append, List.cons_append, List.singleton_append, firstChar_four rest (charWidth_four (by omega))
      ((isSecond_iff _ _).2 (by omega)) ((isTail_iff _).2 (by omega)) ((isTail_iff _).2 (by omega)), hfirst, hb, hc, hd]
    have hnumber : (((c.toNat / 262144 % 8 + 240) % 8 * 64 + (c.toNat / 4096 % 64 + 128) % 64) * 64 +
        (c.toNat / 64 % 64 + 128) % 64) * 64 + (c.toNat % 64 + 128) % 64 = c.toNat := by omega
    rw [hnumber, Char.ofNat_toNat]
    rfl

/-! ## A text -/

theorem lossyChars_flatMap (chars : List Char) : lossyChars (chars.flatMap String.utf8EncodeChar) = chars := by
  induction chars with
  | nil => rw [List.flatMap_nil, lossyChars]
  | cons c rest ih =>
    obtain ⟨first, more, hbytes, hread⟩ := firstChar_encodeChar c (rest.flatMap String.utf8EncodeChar)
    rw [List.flatMap_cons, hbytes, List.cons_append, lossyChars]
    simp only [hread, Option.getD_some, List.drop_left, ih]

/-- **The bytes of a text are read as that text.** -/
theorem lossy_encode (s : String) : lossy (encode s) = s := by
  rw [lossy, encode_eq_flatMap, lossyChars_flatMap, String.ofList_toList]

end MountSpace.Text

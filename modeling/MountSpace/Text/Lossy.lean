/-
Bytes read as UTF-8 text. `decode?` accepts well-formed UTF-8 only; `lossy` reads any bytes, with one replacement
character for every longest run of bytes that begins a character and cannot be continued.
-/

namespace MountSpace.Text

/-- the bytes of a text -/
def encode (s : String) : List UInt8 := s.toByteArray.data.toList

/-- the text of well-formed bytes -/
def decode? (bytes : List UInt8) : Option String := String.fromUTF8? bytes.toByteArray

/-- a byte that goes on with a character -/
def isTail (b : UInt8) : Bool := 0x80 ≤ b && b ≤ 0xbf

/-- a byte that may follow the first byte of a character of several -/
def isSecond (first b : UInt8) : Bool :=
  if first == 0xe0 then 0xa0 ≤ b && b ≤ 0xbf
  else if first == 0xed then 0x80 ≤ b && b ≤ 0x9f
  else if first == 0xf0 then 0x90 ≤ b && b ≤ 0xbf
  else if first == 0xf4 then 0x80 ≤ b && b ≤ 0x8f
  else isTail b

/-- how many bytes a character has by its first byte; no character begins with any other byte -/
def charWidth (first : UInt8) : Option Nat :=
  if first < 0x80 then some 1
  else if 0xc2 ≤ first ∧ first ≤ 0xdf then some 2
  else if 0xe0 ≤ first ∧ first ≤ 0xef then some 3
  else if 0xf0 ≤ first ∧ first ≤ 0xf4 then some 4
  else none

/-- the bits that one more byte adds to a code point -/
def addTail (n : Nat) (b : UInt8) : Nat := n * 64 + b.toNat % 64

/-- the first character of the bytes, or none for a broken one, and how many more bytes it takes -/
def firstChar (first : UInt8) (rest : List UInt8) : Option Char × Nat :=
  match charWidth first, rest with
  | some 1, _ => (some (Char.ofNat first.toNat), 0)
  | some 2, b :: _ => if isSecond first b then (some (Char.ofNat (addTail (first.toNat % 32) b)), 1) else (none, 0)
  | some 3, b :: c :: _ =>
    if !isSecond first b then (none, 0)
    else if !isTail c then (none, 1)
    else (some (Char.ofNat (addTail (addTail (first.toNat % 16) b) c)), 2)
  | some 4, b :: c :: d :: _ =>
    if !isSecond first b then (none, 0)
    else if !isTail c then (none, 1)
    else if !isTail d then (none, 2)
    else (some (Char.ofNat (addTail (addTail (addTail (first.toNat % 8) b) c) d)), 3)
  | some _, b :: c :: _ => if !isSecond first b then (none, 0) else if !isTail c then (none, 1) else (none, 2)
  | some _, b :: _ => if isSecond first b then (none, 1) else (none, 0)
  | _, _ => (none, 0)

/-- the characters of any bytes, broken ones replaced -/
def lossyChars : List UInt8 → List Char
  | [] => []
  | first :: rest =>
    let (c, more) := firstChar first rest
    c.getD '\ufffd' :: lossyChars (rest.drop more)
termination_by bytes => bytes.length
decreasing_by exact Nat.lt_succ_of_le (by rw [List.length_drop]; exact Nat.sub_le _ _)

/-- any bytes as text -/
def lossy (bytes : List UInt8) : String := String.ofList (lossyChars bytes)

end MountSpace.Text

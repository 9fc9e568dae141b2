/-
Text between double quotes, as messages show it. A quote and a backslash are escaped, four control characters have
short forms, and a character that would not stand visibly on its own (it has no form, or it attaches to the one before
it) is written by its code point in hexadecimal.
-/
import MountSpace.Text.Printable
import MountSpace.Text.Combining

namespace MountSpace.Text

/-- a code point in braces, in lower-case hexadecimal -/
def codePoint (n : Nat) : List Char := "\\u\x7b".toList ++ Nat.toDigits 16 n ++ ['\x7d']

/-- one character as it stands between quotes -/
def escape (c : Char) : List Char :=
  if c.toNat = 0 then "\\0".toList
  else if c = '\t' then "\\t".toList
  else if c = '\r' then "\\r".toList
  else if c = '\n' then "\\n".toList
  else if c = '\\' ∨ c = '\x22' then ['\\', c]
  else if isCombining c || !isPrintable c then codePoint c.toNat
  else [c]

/-- a text in quotes -/
def quoted (s : String) : String := String.ofList ('\x22' :: s.toList.flatMap escape ++ ['\x22'])

end MountSpace.Text

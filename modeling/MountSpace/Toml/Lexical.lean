/-
The small parts of TOML text: blanks and line ends, keys, strings with their escapes. A reader takes a value off the
front of the text and leaves the rest, or fails; nothing is ever tried in two ways once its first character has settled
what it is.
-/

namespace MountSpace.Toml

/-- reads a value off the front of the text -/
abbrev Reader (α : Type) := List Char → Option (α × List Char)

/-- a blank within a line -/
def isBlank (c : Char) : Bool := c == ' ' || c == '\t'

/-- a character that may stand in a comment: a tab, a visible ASCII character or blank, any other character -/
def isText (c : Char) : Bool := c == '\t' || (0x20 ≤ c.toNat && c.toNat ≤ 0x7e) || 0x80 ≤ c.toNat

/-- the text after blanks -/
def skipBlanks (text : List Char) : List Char := text.dropWhile isBlank

/-- the text after one line end -/
def lineEnd? : List Char → Option (List Char)
  | '\n' :: rest => some rest
  | '\r' :: '\n' :: rest => some rest
  | _ => none

/-- the text after the rest of a line that holds nothing but blanks and a comment -/
def finishLine? (text : List Char) : Option (List Char) :=
  let text := match skipBlanks text with
    | '#' :: rest => rest.dropWhile isText
    | rest => rest
  match text with
  | [] => some []
  | text => lineEnd? text

/-- the text after blanks, line ends and comments -/
def skipSpace (text : List Char) : List Char :=
  match text with
  | [] => []
  | '\r' :: '\n' :: rest => skipSpace rest
  | '\n' :: rest => skipSpace rest
  | '#' :: rest => skipSpace (rest.dropWhile isText)
  | c :: rest => if isBlank c then skipSpace rest else c :: rest
termination_by text.length
decreasing_by
  · exact Nat.lt_succ_of_lt (Nat.lt_succ_self _)
  · exact Nat.lt_succ_self _
  · exact Nat.lt_succ_of_le (List.dropWhile_sublist isText).length_le
  · exact Nat.lt_succ_self _

/-- the value of a hexadecimal digit -/
def hexValue? (c : Char) : Option Nat :=
  if '0' ≤ c ∧ c ≤ '9' then some (c.toNat - '0'.toNat)
  else if 'a' ≤ c ∧ c ≤ 'f' then some (c.toNat - 'a'.toNat + 10)
  else if 'A' ≤ c ∧ c ≤ 'F' then some (c.toNat - 'A'.toNat + 10)
  else none

/-- the character of a code point written in hexadecimal digits; a surrogate is none -/
def codePoint? (digits : List Char) : Option Char := do
  let values ← digits.mapM hexValue?
  let n := values.foldl (fun n d => n * 16 + d) 0
  if n < 0xd800 ∨ (0xdfff < n ∧ n < 0x110000) then some (Char.ofNat n) else none

/-- the character of an escape, after the backslash -/
def escape? : Reader Char
  | 'b' :: rest => some ('\x08', rest)
  | 't' :: rest => some ('\t', rest)
  | 'n' :: rest => some ('\n', rest)
  | 'f' :: rest => some ('\x0c', rest)
  | 'r' :: rest => some ('\r', rest)
  | '\x22' :: rest => some ('\x22', rest)
  | '\\' :: rest => some ('\\', rest)
  | 'u' :: rest => if rest.length < 4 then none else (codePoint? (rest.take 4)).map fun c => (c, rest.drop 4)
  | 'U' :: rest => if rest.length < 8 then none else (codePoint? (rest.take 8)).map fun c => (c, rest.drop 8)
  | _ => none

theorem escape?_shorter {text rest : List Char} {c : Char} (h : escape? text = some (c, rest)) :
    rest.length < text.length := by
  unfold escape? at h
  split at h
  case h_8 =>
    split at h
    · cases h
    · obtain ⟨_, _, h⟩ := Option.map_eq_some_iff.1 h
      cases h
      exact Nat.lt_succ_of_le (by rw [List.length_drop]; exact Nat.sub_le _ _)
  case h_9 =>
    split at h
    · cases h
    · obtain ⟨_, _, h⟩ := Option.map_eq_some_iff.1 h
      cases h
      exact Nat.lt_succ_of_le (by rw [List.length_drop]; exact Nat.sub_le _ _)
  all_goals
    cases h
    try exact Nat.lt_succ_self _

/-- the rest of a string between double quotes on one line -/
def basicRest (text : List Char) : Option (List Char × List Char) :=
  match text with
  | [] => none
  | '\x22' :: rest => some ([], rest)
  | '\\' :: rest =>
    match _h : escape? rest with
    | none => none
    | some (c, after) => (basicRest after).map fun (cs, rest) => (c :: cs, rest)
  | c :: rest => if isText c then (basicRest rest).map fun (cs, rest) => (c :: cs, rest) else none
termination_by text.length
decreasing_by
  · exact Nat.lt_succ_of_lt (escape?_shorter _h)
  · exact Nat.lt_succ_self _

/-- the rest of a string between single quotes on one line -/
def literalRest : List Char → Option (List Char × List Char)
  | [] => none
  | c :: rest =>
    if c = '\x27' then some ([], rest)
    else if isText c then (literalRest rest).map fun (cs, rest) => (c :: cs, rest)
    else none

/-- how many of this character the text begins with -/
def runLength (quote : Char) (text : List Char) : Nat := (text.takeWhile (· == quote)).length

/-- the end of a string of several lines: three quotes, and up to two before them that belong to the string -/
def closing? (quote : Char) (text : List Char) : Option (List Char × List Char) :=
  let n := runLength quote text
  if n < 3 then none else some (List.replicate (min n 5 - 3) quote, text.drop (min n 5))

/-- the text after blanks and line ends -/
def skipFolded (text : List Char) : List Char :=
  match text with
  | '\r' :: '\n' :: rest => skipFolded rest
  | '\n' :: rest => skipFolded rest
  | c :: rest => if isBlank c then skipFolded rest else c :: rest
  | [] => []

theorem skipFolded_le (text : List Char) : (skipFolded text).length ≤ text.length := by
  fun_induction skipFolded text with
  | case1 rest ih => exact Nat.le_succ_of_le (Nat.le_succ_of_le ih)
  | case2 rest ih => exact Nat.le_succ_of_le ih
  | case3 c rest _ _ _ ih => exact Nat.le_succ_of_le ih
  | case4 => exact Nat.le_refl _
  | case5 => exact Nat.le_refl _

/-- the rest of a string of several lines; in one between double quotes a backslash escapes, and at the end of a line it
folds the line ends and blanks after it -/
def multiRest (quote : Char) (text : List Char) : Option (List Char × List Char) :=
  match closing? quote text with
  | some (quotes, rest) => some (quotes, rest)
  | none =>
    match text with
    | [] => none
    | '\r' :: '\n' :: rest => (multiRest quote rest).map fun (cs, rest) => ('\n' :: cs, rest)
    | '\n' :: rest => (multiRest quote rest).map fun (cs, rest) => ('\n' :: cs, rest)
    | c :: rest =>
      if c = '\\' ∧ quote = '\x22' then
        match lineEnd? (skipBlanks rest) with
        | some _ => multiRest quote (skipFolded rest)
        | none =>
          match _h : escape? rest with
          | none => none
          | some (c, after) => (multiRest quote after).map fun (cs, rest) => (c :: cs, rest)
      else if isText c then (multiRest quote rest).map fun (cs, rest) => (c :: cs, rest)
      else none
termination_by text.length
decreasing_by
  · exact Nat.lt_succ_of_lt (Nat.lt_succ_self _)
  · exact Nat.lt_succ_self _
  · exact Nat.lt_succ_of_le (skipFolded_le rest)
  · exact Nat.lt_succ_of_lt (escape?_shorter _h)
  · exact Nat.lt_succ_self _

/-- a line end at the very beginning of a string of several lines does not count -/
def skipFirstLineEnd (text : List Char) : List Char := (lineEnd? text).getD text

/-- a string of any kind -/
def string? : Reader String
  | '\x22' :: '\x22' :: '\x22' :: rest =>
    (multiRest '\x22' (skipFirstLineEnd rest)).map fun (cs, rest) => (String.ofList cs, rest)
  | '\x22' :: rest => (basicRest rest).map fun (cs, rest) => (String.ofList cs, rest)
  | '\x27' :: '\x27' :: '\x27' :: rest =>
    (multiRest '\x27' (skipFirstLineEnd rest)).map fun (cs, rest) => (String.ofList cs, rest)
  | '\x27' :: rest => (literalRest rest).map fun (cs, rest) => (String.ofList cs, rest)
  | _ => none

/-- a character of a key without quotes -/
def isBare (c : Char) : Bool := c.isAlphanum || c == '-' || c == '_'

/-- one part of a key: bare, or a string on one line -/
def keyPart? : Reader String
  | '\x22' :: rest => (basicRest rest).map fun (cs, rest) => (String.ofList cs, rest)
  | '\x27' :: rest => (literalRest rest).map fun (cs, rest) => (String.ofList cs, rest)
  | text =>
    match text.takeWhile isBare with
    | [] => none
    | cs => some (String.ofList cs, text.dropWhile isBare)

/-- depths of nesting and lengths of keys stay below this -/
def depthLimit : Nat := 80

/-- parts of a key with dots between them, at most so many -/
def keyParts? : Nat → Reader (List String)
  | 0, _ => none
  | more + 1, text =>
    match keyPart? (skipBlanks text) with
    | none => none
    | some (part, rest) =>
      match skipBlanks rest with
      | '.' :: rest => (keyParts? more rest).map fun (parts, rest) => (part :: parts, rest)
      | rest => some ([part], rest)

/-- a key: the parts before the last and the last -/
def key? (text : List Char) : Option ((List String × String) × List Char) :=
  match keyParts? (depthLimit - 1) text with
  | some (parts, rest) => parts.getLast?.map fun last => ((parts.dropLast, last), rest)
  | none => none

end MountSpace.Toml

/-
Numbers and moments in TOML text. Digits may have single underscores between them; a decimal number has no leading zero;
integers must fit a signed word of 64 bits; a real number must be finite unless it is written as infinite.
-/
import MountSpace.Toml.Lexical
import MountSpace.Value

namespace MountSpace.Toml

/-- digits after the first: an underscore must have a digit behind it -/
def moreDigits (p : Char → Bool) : Reader (List Char)
  | '_' :: c :: rest => if p c then (moreDigits p rest).map fun (ds, rest) => (c :: ds, rest) else none
  | ['_'] => none
  | c :: rest => if p c then (moreDigits p rest).map fun (ds, rest) => (c :: ds, rest) else some ([], c :: rest)
  | [] => some ([], [])

/-- at least one digit, underscores left out -/
def digits? (p : Char → Bool) : Reader (List Char)
  | c :: rest => if p c then (moreDigits p rest).map fun (ds, rest) => (c :: ds, rest) else none
  | [] => none

/-- the number that digits write in a base -/
def ofDigits (base : Nat) (digits : List Char) : Nat :=
  digits.foldl (fun n c => n * base + (hexValue? c).getD 0) 0

/-- a sign in front, and whether it is a minus -/
def sign (text : List Char) : Bool × List Char :=
  match text with
  | '+' :: rest => (false, rest)
  | '-' :: rest => (true, rest)
  | text => (false, text)

/-- the digits of a decimal integer: a zero alone, or digits from one that is not zero -/
def decimal? (text : List Char) : Option (List Char × List Char) :=
  match text with
  | '0' :: rest => some (['0'], rest)
  | text => digits? Char.isDigit text

/-- an integer that fits a signed word of 64 bits -/
def word? (n : Int) : Option Value := if -(1 <<< 63 : Nat) ≤ n ∧ n < (1 <<< 63 : Nat) then some (.int n) else none

/-- an integer in another base, after its mark -/
def based? (base : Nat) (p : Char → Bool) (text : List Char) : Option (Value × List Char) := do
  let (ds, rest) ← digits? p text
  return (← word? (ofDigits base ds), rest)

/-- the digits times a power of ten round to infinity -/
def overflows (digits : List Char) (power : Int) : Bool :=
  let n := ofDigits 10 digits
  let size : Int := (Nat.toDigits 10 n).length + power
  if n = 0 ∨ size < 309 then false
  else if 310 < size then true
  else if 0 ≤ power then 1 <<< 1024 - 1 <<< 970 ≤ n * Nat.pow 10 power.toNat
  else (1 <<< 1024 - 1 <<< 970) * Nat.pow 10 (-power).toNat ≤ n

/-- the exponent of a real number, after its letter -/
def exponent? (text : List Char) : Option (Int × List Char) := do
  let (negative, text) := sign text
  let (ds, rest) ← digits? Char.isDigit text
  return (if negative then -(ofDigits 10 ds : Int) else ofDigits 10 ds, rest)

/-- a real number, unless it is too large; how it is written does not matter any more -/
def real? (negative : Bool) (whole fraction : List Char) (exponent : Int) : Option Value :=
  if !negative && overflows (whole ++ fraction) (exponent - fraction.length) then none
  else some (.real (String.ofList whole))

/-- a number after its sign: an integer, or a real number with a fraction, an exponent or both -/
def unsigned? (negative : Bool) (text : List Char) : Option (Value × List Char) := do
  let (whole, rest) ← decimal? text
  match rest with
  | '.' :: rest =>
    let (fraction, rest) ← digits? Char.isDigit rest
    match rest with
    | 'e' :: rest | 'E' :: rest =>
      let (exponent, rest) ← exponent? rest
      return (← real? negative whole fraction exponent, rest)
    | rest => return (← real? negative whole fraction 0, rest)
  | 'e' :: rest | 'E' :: rest =>
    let (exponent, rest) ← exponent? rest
    return (← real? negative whole [] exponent, rest)
  | rest =>
    let n : Int := ofDigits 10 whole
    return (← word? (if negative then -n else n), rest)

/-- a number -/
def number? (text : List Char) : Option (Value × List Char) :=
  match text with
  | '0' :: 'x' :: rest => based? 16 (fun c => (hexValue? c).isSome) rest
  | '0' :: 'o' :: rest => based? 8 (fun c => '0' ≤ c && c ≤ '7') rest
  | '0' :: 'b' :: rest => based? 2 (fun c => c == '0' || c == '1') rest
  | text =>
    let (negative, unsigned) := sign text
    match unsigned with
    | 'i' :: 'n' :: 'f' :: rest => some (.real "inf", rest)
    | 'n' :: 'a' :: 'n' :: rest => some (.real "nan", rest)
    | unsigned => unsigned? negative unsigned

/-! Moments. -/

/-- exactly so many digits -/
def fixed? (n : Nat) (text : List Char) : Option (Nat × List Char) :=
  let ds := text.take n
  if ds.length = n && ds.all Char.isDigit then some (ofDigits 10 ds, text.drop n) else none

/-- exactly so many digits for a number within bounds -/
def bounded? (n low high : Nat) (text : List Char) : Option (Nat × List Char) := do
  let (v, rest) ← fixed? n text
  if low ≤ v ∧ v ≤ high then some (v, rest) else none

/-- one given character -/
def char? (c : Char) : List Char → Option (List Char)
  | d :: rest => if c = d then some rest else none
  | [] => none

/-- the days of a month -/
def daysIn (year month : Nat) : Nat :=
  if month = 2 then (if year % 4 = 0 ∧ (year % 100 ≠ 0 ∨ year % 400 = 0) then 29 else 28)
  else if month = 4 ∨ month = 6 ∨ month = 9 ∨ month = 11 then 30
  else 31

/-- the text after the month and day of a date -/
def monthDay? (year : Nat) (text : List Char) : Option (List Char) := do
  let (month, rest) ← bounded? 2 1 12 text
  let (_, rest) ← bounded? 2 1 (daysIn year month) (← char? '-' rest)
  return rest

/-- the text after the minutes, seconds and fraction of a time -/
def minuteSecond? (text : List Char) : Option (List Char) := do
  let (_, rest) ← bounded? 2 0 59 text
  let (_, rest) ← bounded? 2 0 60 (← char? ':' rest)
  match rest with
  | '.' :: rest =>
    match rest.takeWhile Char.isDigit with
    | [] => none
    | _ => some (rest.dropWhile Char.isDigit)
  | rest => some rest

/-- the text after an offset from universal time, which may be left out -/
def offset? (text : List Char) : Option (List Char) :=
  match text with
  | 'Z' :: rest | 'z' :: rest => some rest
  | '+' :: rest | '-' :: rest => do
    let (_, rest) ← bounded? 2 0 23 rest
    let (_, rest) ← bounded? 2 0 59 (← char? ':' rest)
    return rest
  | rest => some rest

/-- the text after the time of a date, which may be left out -/
def timeOfDate? (text : List Char) : Option (List Char) :=
  match text with
  | c :: rest =>
    if c = 'T' ∨ c = 't' ∨ c = ' ' then
      match bounded? 2 0 23 rest with
      | some (_, ':' :: rest) => do offset? (← minuteSecond? rest)
      | _ => some (c :: rest)
    else some (c :: rest)
  | [] => some []

/-- what a moment or number is, by its first digits: a date, a time of day, or a number -/
def numberOrMoment? (text : List Char) : Option (Value × List Char) :=
  match fixed? 4 text, bounded? 2 0 23 text with
  | some (year, '-' :: rest), _ => do
    let rest ← monthDay? year rest
    return (.moment, ← timeOfDate? rest)
  | _, some (_, ':' :: rest) => do return (.moment, ← minuteSecond? rest)
  | _, _ => number? text

end MountSpace.Toml

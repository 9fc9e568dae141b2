/-
Structured data as documents carry it: records of named fields, lists and plain values. Readers of a document produce
it, and the codecs of entries, attributes and settings go to and from it.
-/

namespace MountSpace

/-- one value of a document; of a real number its whole part is kept, as written, of a moment only that it is one -/
inductive Value where
  | null
  | bool (b : Bool)
  | int (n : Int)
  | real (text : String)
  | moment
  | text (s : String)
  | list (items : List Value)
  | record (fields : List (String × Value))
  deriving Repr, Inhabited

namespace Value

/-- the field of a record by its name -/
def field? : Value → String → Option Value
  | record fields, name => fields.lookup name
  | _, _ => none

/-- the text of a text value -/
def text? : Value → Option String
  | text s => some s
  | _ => none

/-- an integer that fits a word of 64 bits without sign -/
def word? : Value → Option Nat
  | int n => if 0 ≤ n ∧ n < (1 <<< 64 : Nat) then some n.toNat else none
  | _ => none

end Value

end MountSpace

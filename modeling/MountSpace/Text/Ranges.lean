/-
Sets of characters given by a table of code point ranges, ends included.
-/

namespace MountSpace.Text

/-- one row of a table: every code point from `first` to `last` -/
structure Range where
  first : Nat
  last : Nat
  deriving DecidableEq, Repr

/-- the code point lies in the row -/
def Range.holds (r : Range) (n : Nat) : Bool := r.first ≤ n && n ≤ r.last

/-- some row of the table holds the code point -/
def inRanges (table : List Range) (n : Nat) : Bool := table.any (·.holds n)

/-- the rows of a table written as pairs -/
def rangesOf (pairs : List (Nat × Nat)) : List Range := pairs.map fun p => ⟨p.1, p.2⟩

end MountSpace.Text

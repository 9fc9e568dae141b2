/-
Names compared without regard to case. Two names are equal when their characters, each replaced by its lower case, give
the same sequence; the order of names is the order of these sequences. Every look-up of a name goes through here.
-/
import MountSpace.Text.Lowercase

namespace MountSpace.Text

/-- the lower case of every character, in order -/
def fold (s : String) : List Char := s.toList.flatMap lower

/-- equal apart from case -/
def sameName (a b : String) : Bool := fold a == fold b

/-- the order of names apart from case, by code points of the folded text -/
def compareNames (a b : String) : Ordering := compare (fold a) (fold b)

end MountSpace.Text

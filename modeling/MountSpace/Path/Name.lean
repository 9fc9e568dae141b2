/-
One component of a namespace path. A name is any text but the empty one, the three texts of dots alone that could be
read as a step, and texts with a separator in them. Nothing is normalised: a text that is no name is refused.
-/
import MountSpace.Error
import MountSpace.Text.Quoted

namespace MountSpace

/-- what is wrong with a text that is no name -/
inductive NameFault where
  | empty | dot | dotDot | dotDotDot | separator
  deriving DecidableEq, Repr

/-- the rule a fault breaks -/
def NameFault.message : NameFault → String
  | empty => "path components cannot be empty"
  | dot => "path components cannot equal '.'"
  | dotDot => "path components cannot equal '..'"
  | dotDotDot => "path components cannot equal '...'"
  | separator => "path components cannot contain '/'"

/-- the fault of a text, none for a name -/
def nameFault? (text : String) : Option NameFault :=
  match text.toList with
  | [] => some .empty
  | ['.'] => some .dot
  | ['.', '.'] => some .dotDot
  | ['.', '.', '.'] => some .dotDotDot
  | chars => if '/' ∈ chars then some .separator else none

/-- refuse a text that is no name, quoting it -/
def checkName (text : String) : Except FsError Unit :=
  match nameFault? text with
  | some fault => .error (.invalidPath (fault.message ++ " (received: " ++ Text.quoted text ++ ")"))
  | none => .ok ()

/-- refuse a list by the first of its texts that is no name -/
def checkNames : List String → Except FsError Unit
  | [] => .ok ()
  | name :: names =>
    match checkName name with
    | .error e => .error e
    | .ok _ => checkNames names

end MountSpace

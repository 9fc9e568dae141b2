/-
The report of a failure: the outermost message, and below it what lies behind it, one cause after the other. A single
cause is indented; several are numbered. Further lines of a message are indented as far as its first.
-/
import MountSpace.Error
import MountSpace.Text.Pieces

namespace MountSpace.CommandLine

/-- the messages of an error from the outside in -/
def messages (e : FsError) : List String :=
  match e with
  | .system s => [e.message, s.message]
  | e => [e.message]

/-- a text with something in front of its first line and something in front of every other -/
def indent (first others text : String) : String :=
  match (Text.split '\n' text.toList).map String.ofList with
  | [] => first
  | line :: lines => first ++ line ++ String.join (lines.map fun l => "\n" ++ others ++ l)

/-- the number of a cause, in five places -/
def numbered (n : Nat) : String :=
  let digits := toString n
  String.ofList (List.replicate (5 - digits.length) ' ') ++ digits ++ ": "

/-- several causes, numbered from the outermost -/
def numberedCauses (n : Nat) : List String → String
  | [] => ""
  | cause :: causes => "\n" ++ indent (numbered n) "       " cause ++ numberedCauses (n + 1) causes

/-- what lies behind a failure -/
def causeLines : List String → String
  | [] => ""
  | [cause] => "\n\nCaused by:\n" ++ indent "    " "    " cause
  | causes => "\n\nCaused by:" ++ numberedCauses 0 causes

/-- the report of a failure, told from the outside in -/
def report : List String → String
  | [] => "Error: \n"
  | message :: causes => "Error: " ++ message ++ causeLines causes ++ "\n"

end MountSpace.CommandLine

/-
The arguments of the program. Options come before the command that they are for: those of the program before its
command, those of a command after it. An option's value stands in the same argument or in the next one, which must not
look like an option. Arguments are read from left to right, so of two faults the first counts, and a request for help
counts as soon as it is read.
-/
import MountSpace.Space.Settings
import MountSpace.Watch.Key

namespace MountSpace.CommandLine

/-- what the program is asked to do -/
inductive Command where
  | list (path : String)
  | print (path : String)
  | stat (path : String)
  | mounts
  | watch (path : String) (kinds : List EventKind) (count : Option Nat)
  deriving DecidableEq, Repr

/-- the program's own options and its command -/
structure Invocation where
  config : Option FsPath
  mounts : List MountSetting
  pollMs : Option Nat
  command : Command
  deriving DecidableEq, Repr

/-- why there is nothing to do -/
inductive Refusal where
  | help | usage
  deriving DecidableEq, Repr

/-- one argument: plain, the mark after which all are plain, or an option with the value attached to it -/
inductive Argument where
  | plain (text : String)
  | mark
  | option (name : String) (attached : Option String)
  deriving DecidableEq, Repr

/-- the parts before and after the first occurrence of a character -/
def cut (c : Char) (text : List Char) : List Char × Option (List Char) :=
  match text.dropWhile (· != c) with
  | [] => (text, none)
  | _ :: rest => (text.takeWhile (· != c), some rest)

/-- the parts before and after the last occurrence of a character -/
def cutLast? (c : Char) (text : List Char) : Option (List Char × List Char) :=
  match cut c text.reverse with
  | (_, none) => none
  | (after, some before) => some (before.reverse, after.reverse)

/-- the full name of a short option -/
def longName : Char → String
  | 'c' => "config"
  | 'm' => "mount"
  | c => String.ofList [c]

/-- what an argument is by its dashes; a dash alone is plain -/
def classify (text : String) : Argument :=
  match text.toList with
  | ['-', '-'] => .mark
  | '-' :: '-' :: rest =>
    let (name, value) := cut '=' rest
    .option (String.ofList name) (value.map String.ofList)
  | '-' :: '=' :: _ => .option "" none
  | '-' :: 'h' :: _ => .option "help" none
  | ['-', c] => .option (longName c) none
  | '-' :: c :: '=' :: rest => .option (longName c) (some (String.ofList rest))
  | '-' :: c :: rest => .option (longName c) (some (String.ofList rest))
  | _ => .plain text

/-- the value of an option, attached or in the next argument, and the arguments after it -/
def optionValue (attached : Option String) (rest : List String) : Except Refusal (String × List String) :=
  match attached, rest with
  | some value, rest => .ok (value, rest)
  | none, [] => .error .usage
  | none, next :: rest =>
    match classify next with
    | .plain value => .ok (value, rest)
    | _ => .error .usage

/-- a number below a bound, in digits with a plus sign in front or none -/
def number? (bound : Nat) (text : String) : Option Nat :=
  let digits := match text.toList with
    | '+' :: rest => rest
    | chars => chars
  if digits.isEmpty || !digits.all Char.isDigit then none
  else
    let n := digits.foldl (fun n c => n * 10 + (c.toNat - '0'.toNat)) 0
    if n < bound then some n else none

/-- a mount as `SOURCE:AT`, split at the last colon; the source is not empty and the path is absolute -/
def mount? (text : String) : Option MountSetting :=
  match cutLast? ':' text.toList with
  | some (c :: source, '/' :: at_) => some ⟨.ofString (String.ofList (c :: source)), String.ofList ('/' :: at_)⟩
  | _ => none

/-- the pieces of a text between commas, each the name of a kind of change -/
def kinds? (text : String) : Option (List EventKind) :=
  ((Text.split ',' text.toList).map String.ofList).mapM EventKind.ofName?

/-- a value that must be there -/
def require {α : Type} : Option α → Except Refusal α
  | some a => .ok a
  | none => .error .usage

/-- the program's options read so far -/
structure Options where
  config : Option FsPath := none
  mounts : List MountSetting := []
  pollMs : Option Nat := none
  deriving DecidableEq, Repr

/-- one option of the program with its value; a path may not be empty, and only mounts may come again -/
def Options.add (o : Options) (name value : String) : Except Refusal Options :=
  match name with
  | "config" =>
    if o.config.isSome || value.isEmpty then .error .usage else .ok { o with config := some (.ofString value) }
  | "mount" => (require (mount? value)).map fun m => { o with mounts := o.mounts ++ [m] }
  | "poll-interval-ms" =>
    if o.pollMs.isSome then .error .usage
    else (require (number? (1 <<< 64) value)).map fun n => { o with pollMs := some n }
  | _ => .error .usage

/-- what follows a command: its plain arguments, and the options of a watch -/
structure Rest where
  plain : List String := []
  kinds : List EventKind := []
  count : Option Nat := none
  deriving DecidableEq, Repr

/-- the most plain arguments a command takes -/
def plainLimit (command : String) : Nat := if command = "mounts" then 0 else 1

/-- one more plain argument -/
def Rest.addPlain (r : Rest) (command text : String) : Except Refusal Rest :=
  if r.plain.length < plainLimit command then .ok { r with plain := r.plain ++ [text] } else .error .usage

/-- one option of a command with its value -/
def Rest.addOption (r : Rest) (name value : String) : Except Refusal Rest :=
  if name = "events" then (require (kinds? value)).map fun ks => { r with kinds := r.kinds ++ ks }
  else if r.count.isSome then .error .usage
  else (require (number? (1 <<< 64) value)).map fun n => { r with count := some n }

/-- the arguments after a command; `fuel` counts them -/
def parseRest (command : String) : Nat → Rest → List String → Except Refusal Rest
  | 0, r, _ => .ok r
  | _, r, [] => .ok r
  | fuel + 1, r, text :: rest =>
    match classify text with
    | .plain text => do parseRest command fuel (← r.addPlain command text) rest
    | .mark => rest.foldlM (fun r text => r.addPlain command text) r
    | .option "help" none => .error .help
    | .option name attached =>
      if command = "watch" ∧ (name = "events" ∨ name = "count") ∧ text.toList.take 2 = ['-', '-'] then do
        let (value, rest) ← optionValue attached rest
        parseRest command fuel (← r.addOption name value) rest
      else .error .usage

/-- the command by its name, with what follows it -/
def command (name : String) (args : List String) : Except Refusal Command :=
  match name with
  | "ls" => do
    let r ← parseRest name args.length {} args
    return .list (r.plain.headD "/")
  | "cat" => do
    let r ← parseRest name args.length {} args
    return .print (← require r.plain.head?)
  | "stat" => do
    let r ← parseRest name args.length {} args
    return .stat (← require r.plain.head?)
  | "mounts" => do
    let _ ← parseRest name args.length {} args
    return .mounts
  | "watch" => do
    let r ← parseRest name args.length {} args
    return .watch (← require r.plain.head?) r.kinds r.count
  | "help" =>
    match args with
    | [] => .error .help
    | [topic] => if topic ∈ ["ls", "cat", "stat", "mounts", "watch", "help"] then .error .help else .error .usage
    | _ => .error .usage
  | _ => .error .usage

/-- the arguments up to the command; `fuel` counts them -/
def parseOptions : Nat → Options → List String → Except Refusal Invocation
  | 0, _, _ => .error .usage
  | _, _, [] => .error .usage
  | fuel + 1, o, text :: rest =>
    match classify text with
    | .plain name => do return ⟨o.config, o.mounts, o.pollMs, ← command name rest⟩
    | .mark => .error .usage
    | .option "help" none => .error .help
    | .option name attached =>
      if name ∈ ["config", "mount", "poll-interval-ms"] then do
        let (value, rest) ← optionValue attached rest
        parseOptions fuel (← o.add name value) rest
      else .error .usage

/-- all arguments of the program -/
def parse (args : List String) : Except Refusal Invocation := parseOptions args.length {} args

end MountSpace.CommandLine

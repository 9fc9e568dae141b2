/-
A TOML document read into a value. Values nest to a limited depth; arrays run over lines, inline tables do not. A line
is a header, a key with its value, or nothing but a comment.
-/
import MountSpace.Toml.Number
import MountSpace.Toml.Table

namespace MountSpace.Toml

/-- the text after a word -/
def word (w : String) (text : List Char) : Option (List Char) :=
  if w.toList.isPrefixOf text then some (text.drop w.toList.length) else none

mutual

/-- a value at a depth of nesting -/
def value? (fuel depth : Nat) (text : List Char) : Option (Value × List Char) :=
  match fuel, text with
  | 0, _ => none
  | _, [] => none
  | fuel + 1, c :: rest =>
    if c = '\x22' ∨ c = '\x27' then (string? (c :: rest)).map fun (s, rest) => (.text s, rest)
    else if c = '[' then if depth + 1 < depthLimit then array? fuel (depth + 1) rest else none
    else if c = '\x7b' then if depth + 1 < depthLimit then inlineTable? fuel (depth + 1) rest else none
    else if c = 't' then (word "true" (c :: rest)).map fun rest => (.bool true, rest)
    else if c = 'f' then (word "false" (c :: rest)).map fun rest => (.bool false, rest)
    else numberOrMoment? (c :: rest)

/-- the rest of an array after its bracket -/
def array? (fuel depth : Nat) (text : List Char) : Option (Value × List Char) :=
  match fuel, skipSpace text with
  | 0, _ => none
  | _, ']' :: rest => some (.list [], rest)
  | fuel + 1, text =>
    match elements? fuel depth text with
    | some (vs, rest) => some (.list vs, rest)
    | none => none

/-- the elements of an array up to its closing bracket; a comma may follow the last -/
def elements? (fuel depth : Nat) (text : List Char) : Option (List Value × List Char) :=
  match fuel with
  | 0 => none
  | fuel + 1 =>
    match value? fuel depth (skipSpace text) with
    | none => none
    | some (v, rest) =>
      match skipSpace rest with
      | ']' :: rest => some ([v], rest)
      | ',' :: rest =>
        match skipSpace rest with
        | ']' :: rest => some ([v], rest)
        | rest => (elements? fuel depth rest).map fun (vs, rest) => (v :: vs, rest)
      | _ => none

/-- the rest of an inline table after its brace -/
def inlineTable? (fuel depth : Nat) (text : List Char) : Option (Value × List Char) :=
  match fuel, skipBlanks text with
  | 0, _ => none
  | _, '\x7d' :: rest => some (.record [], rest)
  | fuel + 1, text =>
    match pairs? fuel depth .empty text with
    | some (item, rest) => some (item.toValue, rest)
    | none => none

/-- the pairs of an inline table up to its closing brace -/
def pairs? (fuel depth : Nat) (item : Item) (text : List Char) : Option (Item × List Char) :=
  match fuel with
  | 0 => none
  | fuel + 1 =>
    match key? text with
    | some ((path, name), '=' :: rest) =>
      match value? fuel depth (skipBlanks rest) with
      | none => none
      | some (v, rest) =>
        match item.putKey path name v, skipBlanks rest with
        | some item, '\x7d' :: rest => some (item, rest)
        | some item, ',' :: rest => pairs? fuel depth item rest
        | _, _ => none
    | _ => none

end

/-- a key and its value on one line -/
def keyValue? (text : List Char) : Option ((List String × String × Value) × List Char) := do
  match ← key? text with
  | ((path, name), '=' :: rest) =>
    let (v, rest) ← value? (4 * rest.length + 4) 0 (skipBlanks rest)
    return ((path, name, v), ← finishLine? rest)
  | _ => none

/-- the key of a header up to its closing brackets, on a line of its own -/
def header? (close : String) (text : List Char) : Option ((List String × String) × List Char) := do
  let (key, rest) ← key? text
  return (key, ← finishLine? (← word close rest))

/-- one line of a document -/
def line? (d : Draft) (text : List Char) : Option (Draft × List Char) :=
  match text with
  | '[' :: '[' :: rest => do
    let ((path, name), rest) ← header? "]]" rest
    return (← d.openElement path name, rest)
  | '[' :: rest => do
    let ((path, name), rest) ← header? "]" rest
    return (← d.openTable path name, rest)
  | text => do
    let ((path, name, v), rest) ← keyValue? text
    return (← d.putKey path name v, rest)

/-- the lines of a document to its end; every line takes something off the text -/
def lines? (d : Draft) (text : List Char) : Option Draft :=
  if (skipSpace text).isEmpty then some d
  else match line? d (skipSpace text) with
    | none => none
    | some (d, rest) => if rest.length < text.length then lines? d rest else none
termination_by text.length

/-- a whole document; a byte order mark in front does not count -/
def document? (text : String) : Option Value := do
  let text := match text.toList with
    | '\ufeff' :: rest => rest
    | text => text
  return (← (← lines? .start text).close).toValue

end MountSpace.Toml

/-
Tables of a TOML document while it is read. A table is implicit until a header names it, and dotted if a dotted key made
it; these two marks decide what may still be added where. A header may name a table once, dotted keys may add to tables
that dotted keys made and to no others, and a value, once written, is closed.
-/
import MountSpace.Table
import MountSpace.Value

namespace MountSpace.Toml

/-- what stands under a key: a closed value, a table, or the tables of an array one after the other -/
inductive Item where
  | value (v : Value)
  | table (implicit_ dotted : Bool) (fields : List (String × Item))
  | tables (elements : List Item)
  deriving Inhabited

namespace Item

/-- a table with nothing in it -/
def empty : Item := table false false []

mutual

/-- what stands under a key as a value -/
def toValue : Item → Value
  | value v => v
  | table _ _ fields => .record (fieldValues fields)
  | tables elements => .list (elementValues elements)

/-- the fields of a table as values -/
def fieldValues : List (String × Item) → List (String × Value)
  | [] => []
  | (name, item) :: rest => (name, item.toValue) :: fieldValues rest

/-- the elements of an array of tables as values -/
def elementValues : List Item → List Value
  | [] => []
  | item :: rest => item.toValue :: elementValues rest

end

/-- change the table that a path of keys leads to, making those that are missing; `byDots` tells a dotted key from a
header -/
def descend (byDots : Bool) (change : Item → Option Item) : List String → Item → Option Item
  | [], item => change item
  | name :: path, table implicit_ dotted fields =>
    match fields.lookup name with
    | none => do
      let item ← descend byDots change path (table true byDots [])
      return table implicit_ dotted (Table.put name item fields)
    | some (table true d inner) => do
      let item ← descend byDots change path (table true d inner)
      return table implicit_ dotted (Table.put name item fields)
    | some (table false d inner) =>
      if byDots then none
      else do
        let item ← descend byDots change path (table false d inner)
        return table implicit_ dotted (Table.put name item fields)
    | some (tables elements) => do
      let item ← descend byDots change path (← elements.getLast?)
      return table implicit_ dotted (Table.put name (tables (elements.dropLast ++ [item])) fields)
    | some (value _) => none
  | _ :: _, _ => none

/-- a value under the last part of a key in a table; a dotted key adds only to a dotted table, a plain key never does -/
def putValue (plain : Bool) (name : String) (v : Value) : Item → Option Item
  | table implicit_ dotted fields =>
    if dotted = plain ∨ (fields.lookup name).isSome then none
    else some (table implicit_ dotted (fields ++ [(name, value v)]))
  | _ => none

/-- a value under a key, dotted or not -/
def putKey (path : List String) (name : String) (v : Value) (item : Item) : Option Item :=
  item.descend true (putValue path.isEmpty name v) path

end Item

/-- a document while it is read: what is finished, and the table that keys go to, with its place -/
structure Draft where
  finished : Item
  /-- the table that keys go to -/
  open_ : Item
  /-- the place of the open table: the parts of its header, none for the top of the document -/
  place : Option (List String × String)
  /-- the open table is the next element of an array -/
  isElement : Bool

namespace Draft

/-- a document of which nothing has been read -/
def start : Draft := ⟨.empty, .empty, none, false⟩

/-- a value under a key of the open table -/
def putKey (d : Draft) (path : List String) (name : String) (v : Value) : Option Draft := do
  return { d with open_ := ← d.open_.putKey path name v }

/-- the open table as a field of its parent -/
def closeTable (name : String) (item : Item) : Item → Option Item
  | .table implicit_ dotted fields =>
    match fields.lookup name with
    | none => some (.table implicit_ dotted (fields ++ [(name, item)]))
    | some (.table true _ _) => some (.table implicit_ dotted (Table.put name item fields))
    | some _ => none
  | _ => none

/-- the open table as one more element of an array of its parent -/
def closeElement (name : String) (item : Item) : Item → Option Item
  | .table implicit_ dotted fields =>
    match fields.lookup name with
    | none => some (.table implicit_ dotted (fields ++ [(name, .tables [item])]))
    | some (.tables elements) => some (.table implicit_ dotted (Table.put name (.tables (elements ++ [item])) fields))
    | some _ => none
  | _ => none

/-- the open table put in its place -/
def close (d : Draft) : Option Item :=
  match d.place with
  | none => some d.open_
  | some (path, name) =>
    d.finished.descend false (if d.isElement then closeElement name d.open_ else closeTable name d.open_) path

/-- what a header finds under its last part: nothing, or a table that other headers only passed through -/
def reopen (name : String) (parent : Item) : Option Item :=
  match parent with
  | .table _ _ fields =>
    match fields.lookup name with
    | none => some .empty
    | some (.table true false inner) => some (.table false false inner)
    | some _ => none
  | _ => none

/-- the table that a path leads to, as a header sees it -/
def find (path : List String) (item : Item) : Option Item :=
  match path, item with
  | [], item => some item
  | name :: path, .table _ _ fields =>
    match fields.lookup name with
    | none => some .empty
    | some (.tables elements) => do find path (← elements.getLast?)
    | some (.table implicit_ dotted inner) => find path (.table implicit_ dotted inner)
    | some (.value _) => none
  | _ :: _, _ => none

/-- take a field out of a table -/
def dropField (name : String) : Item → Option Item
  | .table implicit_ dotted fields => some (.table implicit_ dotted (fields.filter (·.1 ≠ name)))
  | _ => none

/-- a header of a table: what it finds in its place is taken out and opened -/
def openTable (d : Draft) (path : List String) (name : String) : Option Draft := do
  let finished ← d.close
  let open_ ← reopen name (← find path finished)
  return ⟨← finished.descend false (dropField name) path, open_, some (path, name), false⟩

/-- the array that a header adds to is there, or is made -/
def haveArray (name : String) : Item → Option Item
  | .table implicit_ dotted fields =>
    match fields.lookup name with
    | none => some (.table implicit_ dotted (fields ++ [(name, .tables [])]))
    | some (.tables _) => some (.table implicit_ dotted fields)
    | some _ => none
  | _ => none

/-- a header of an element of an array of tables -/
def openElement (d : Draft) (path : List String) (name : String) : Option Draft := do
  let finished ← d.close
  return ⟨← finished.descend false (haveArray name) path, .empty, some (path, name), true⟩

end Draft

end MountSpace.Toml

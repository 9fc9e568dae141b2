/-
The structure of one namespace: vertices by number, each with its node, a link to its parent and the list of its
children. Parent links and child lists are kept apart and rewired together. A vertex that a mount displaced stays,
detached, until the mount goes and it is spliced back under its own number.

The number of the next vertex is the number of slots, so a number is never used again: dropping a vertex empties its
slot. Operations that can fail answer with an `Option`; without an answer nothing has happened.

What a step does to a tree is said by what `get?` and `nextId` give afterwards: `get?_update`, `get?_push`, `get?_drop`.
-/
import MountSpace.Tree.Node

namespace MountSpace

/-- a vertex: its node, its parent if it has one, its children in order -/
structure Vertex where
  node : Node
  parent : Option NodeId
  children : List NodeId
  deriving DecidableEq, Repr

/-- the tree: its root and a slot for every number given out so far -/
structure Tree where
  root : NodeId
  slots : Array (Option Vertex)
  deriving DecidableEq, Repr

/-- a child as its parent sees it -/
structure Edge where
  parent : NodeId
  child : NodeId
  name : String
  deriving DecidableEq, Repr

namespace Tree

/-- the tree of a root alone -/
def withRoot (root : Directory) : Tree := ⟨0, #[some ⟨.directory root, none, []⟩]⟩

/-- the vertex with a number -/
def get? (t : Tree) (id : NodeId) : Option Vertex := t.slots[id]?.join

/-- the number the next vertex will have -/
def nextId (t : Tree) : NodeId := t.slots.size

/-- a vertex changed in place; without the vertex nothing changes -/
def update (t : Tree) (id : NodeId) (f : Vertex → Vertex) : Tree := { t with slots := t.slots.modify id (·.map f) }

/-- a new vertex under the next number -/
def push (t : Tree) (v : Vertex) : Tree := { t with slots := t.slots.push (some v) }

/-- a vertex taken out, its number used up -/
def drop (t : Tree) (id : NodeId) : Tree := { t with slots := t.slots.setIfInBounds id none }

theorem get?_update (t : Tree) (id k : NodeId) (f : Vertex → Vertex) :
    (t.update id f).get? k = if id = k then (t.get? k).map f else t.get? k := by
  unfold get? update
  rw [Array.getElem?_modify]
  split
  · cases t.slots[k]? with
    | none => rfl
    | some slot => cases slot <;> rfl
  · rfl

theorem get?_push (t : Tree) (v : Vertex) (k : NodeId) :
    (t.push v).get? k = if k = t.nextId then some v else t.get? k := by
  unfold get? push nextId
  rw [Array.getElem?_push]
  split <;> rfl

theorem get?_drop (t : Tree) (id k : NodeId) : (t.drop id).get? k = if id = k then none else t.get? k := by
  unfold get? drop
  rw [Array.getElem?_setIfInBounds]
  split
  · split <;> rfl
  · rfl

theorem get?_of_nextId_le (t : Tree) {k : NodeId} (h : t.nextId ≤ k) : t.get? k = none := by
  unfold get?
  rw [Array.getElem?_eq_none h]
  rfl

theorem nextId_update (t : Tree) (id : NodeId) (f : Vertex → Vertex) : (t.update id f).nextId = t.nextId :=
  Array.size_modify

theorem nextId_push (t : Tree) (v : Vertex) : (t.push v).nextId = t.nextId + 1 := Array.size_push (some v)

theorem nextId_drop (t : Tree) (id : NodeId) : (t.drop id).nextId = t.nextId := Array.size_setIfInBounds

/-- how many vertices there are, detached ones included -/
def count (t : Tree) : Nat := t.slots.countP Option.isSome

/-- the node of a vertex -/
def node? (t : Tree) (id : NodeId) : Option Node := (t.get? id).map Vertex.node

/-- the parent of a vertex -/
def parentOf (t : Tree) (id : NodeId) : Option NodeId := (t.get? id).bind Vertex.parent

/-- the children of a vertex -/
def childrenOf (t : Tree) (id : NodeId) : List NodeId := ((t.get? id).map Vertex.children).getD []

/-- the root, or a vertex with a parent -/
def isAttached (t : Tree) (id : NodeId) : Bool := id == t.root || (t.parentOf id).isSome

/-- the vertex is there under this name, apart from case -/
def isNamed (t : Tree) (name : String) (id : NodeId) : Bool :=
  match t.get? id with
  | some v => Text.sameName v.node.name name
  | none => false

/-- the first child of this name, apart from case -/
def findChild (t : Tree) (parent : NodeId) (name : String) : Option NodeId :=
  (t.childrenOf parent).find? (t.isNamed name)

/-- the first child of this name with its node -/
def child? (t : Tree) (parent : NodeId) (name : String) : Option (NodeId × Node) :=
  (t.findChild parent name).bind fun id => (t.node? id).map fun node => (id, node)

/-- the children of a vertex by number and name, in order -/
def edges (t : Tree) (parent : NodeId) : List Edge :=
  (t.childrenOf parent).filterMap fun child => (t.node? child).map fun node => ⟨parent, child, node.name⟩

/-- the parent gets a change of its children, at a moment -/
def withChildren (t : Tree) (parent : NodeId) (now : Time) (f : List NodeId → List NodeId) : Tree :=
  t.update parent fun v => { v with node := v.node.touch now, children := f v.children }

/-- a new child at the end, unless the parent is gone or the name taken -/
def append (t : Tree) (parent : NodeId) (node : Node) (now : Time) : Option (NodeId × Tree) :=
  if !t.isAttached parent || (t.findChild parent node.name).isSome then none
  else some (t.nextId, (t.push ⟨node, some parent, []⟩).withChildren parent now (· ++ [t.nextId]))

/-- take out a directory that has a parent and no children -/
def deleteIfEmpty (t : Tree) (id : NodeId) (now : Time) : Option Tree :=
  if id = t.root then none
  else match t.get? id with
    | some ⟨.directory _, some parent, []⟩ => some ((t.drop id).withChildren parent now (·.filter (· ≠ id)))
    | _ => none

/-- one vertex in the place of another: the same parent and slot, the same children; the other is left detached -/
def splice (t : Tree) (existing replacement : NodeId) : Tree :=
  match t.get? existing with
  | none => t
  | some old =>
    let t := t.update existing fun v => { v with parent := none, children := [] }
    let t := old.children.foldl (fun t child => t.update child fun v => { v with parent := some replacement }) t
    let t := t.update replacement fun v => { v with parent := old.parent, children := old.children }
    match old.parent with
    | some parent => t.update parent fun v => { v with children := v.children.replace existing replacement }
    | none => if t.root = existing then { t with root := replacement } else t

/-- a new vertex in the place of one that is attached, which stays only if the new one shadows it -/
def replaceWith (t : Tree) (existing : NodeId) (node : Node) : Option (NodeId × Tree) :=
  if !t.isAttached existing then none
  else
    let spliced := (t.push ⟨node, none, []⟩).splice existing t.nextId
    some (t.nextId, if node.shadowed = some existing then spliced else spliced.drop existing)

/-- the vertex a mount shadows back in its place, and the mount gone -/
def unmount (t : Tree) (id : NodeId) : Option Tree :=
  if !t.isAttached id then none
  else match t.get? id with
    | some ⟨.mount m, _, _⟩ =>
      if (t.get? m.shadowed).isSome then some ((t.splice id m.shadowed).drop id) else none
    | _ => none

/-- another name for a vertex; siblings are not looked at -/
def rename (t : Tree) (id : NodeId) (name : String) (now : Time) : Option Tree :=
  match t.get? id with
  | some _ => some (t.update id fun v => { v with node := (v.node.setName name).touch now })
  | none => none

end Tree

end MountSpace

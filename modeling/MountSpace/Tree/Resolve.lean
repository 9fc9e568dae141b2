/-
Where a path of a namespace leads. The walk goes down the tree by name, apart from case. At a mount it crosses into the
mounted filesystem, at the mount's source, and goes on there name by name, asking at each step whether the place exists.
A place below a regular file does not exist, and a step that would leave the mount's source is refused.
-/
import MountSpace.Tree.Basic

namespace MountSpace

/-- what a path leads to -/
inductive Place where
  | directory (id : NodeId) (dir : Directory)
  | mount (id : NodeId) (mount : MountNode)
  /-- something inside a mounted filesystem -/
  | real (name : String) (at_ : ExternalPath)
  deriving DecidableEq, Repr

namespace Place

/-- the place of a vertex -/
def ofNode (id : NodeId) : Node → Place
  | .directory dir => directory id dir
  | .mount m => mount id m

/-- the name of what is there -/
def name : Place → String
  | directory _ dir => dir.name
  | mount _ m => m.name
  | real name _ => name

/-- the vertex, if the path ended inside the tree -/
def nodeId? : Place → Option NodeId
  | directory id _ => some id
  | mount id _ => some id
  | real _ _ => none

/-- the place in a mounted filesystem that the path stands for -/
def external? : Place → Option ExternalPath
  | directory _ _ => none
  | mount _ m => some m.record.source
  | real _ place => some place

end Place

/-- the refusal of a step out of a mount -/
def traversalPrevented (path : AbsolutePath) : FsError :=
  .permissionDenied ("path traversal prevented: " ++ path.text)

/-- the absence of a path, told by the names walked so far and the one that is missing -/
def missing (names : List String) : FsError := .notFound ("/" ++ joinNames names)

/-- a step inside a mounted filesystem: the candidate if it exists -/
def descend (ext : External) (path : AbsolutePath) (walked : List String) (name : String) (candidate : ExternalPath) :
    Except FsError Place :=
  match (ext candidate.fs).getattr candidate.path with
  | .ok _ => .ok (.real name candidate)
  | .error e =>
    if e.isNotFound || e.isNotADirectory then .error (missing (walked ++ [name]))
    else match e with
      | .escapesRoot _ | .permissionDenied _ => .error (traversalPrevented path)
      | e => .error e

namespace Tree

/-- one name further from a place -/
def step (ext : External) (t : Tree) (path : AbsolutePath) (walked : List String) (name : String) :
    Place → Except FsError Place
  | .directory id _ =>
    match t.child? id name with
    | some (child, node) => .ok (.ofNode child node)
    | none => .error (missing (walked ++ [name]))
  | .mount _ m =>
    match m.record.source.path.containedJoin name with
    | none => .error (traversalPrevented path)
    | some candidate => descend ext path walked name { m.record.source with path := candidate }
  | .real _ place => descend ext path walked name { place with path := place.path.joinName name }

/-- from a place along the names that are left -/
def walk (ext : External) (t : Tree) (path : AbsolutePath) :
    List String → Place → List String → Except FsError Place
  | _, place, [] => .ok place
  | walked, place, name :: rest =>
    match t.step ext path walked name place with
    | .error e => .error e
    | .ok next => walk ext t path (walked ++ [name]) next rest

/-- where a path leads, from the root -/
def resolve (ext : External) (t : Tree) (path : AbsolutePath) : Except FsError Place :=
  match t.node? t.root with
  | none => .error (.notFound path.text)
  | some node => t.walk ext path [] (.ofNode t.root node) path.names

/-- where a path leads, or nowhere if it does not exist -/
def resolveOrMissing (ext : External) (t : Tree) (path : AbsolutePath) : Except FsError (Option Place) :=
  match t.resolve ext path with
  | .ok place => .ok (some place)
  | .error (.notFound _) => .ok none
  | .error e => .error e

end Tree

end MountSpace

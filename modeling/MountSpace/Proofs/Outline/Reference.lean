/-
What a namespace is meant to be, without an arena: an ordered tree of names in which every node carries a stack of
mounts. A path is walked by name, apart from case; a node with mounts over it hands the rest of the path to the newest
one, and the children it hides stay with it. To mount is to push, to unmount is to pop.

The operations ask the same questions in the same order as those of `Namespace` and say the same when they refuse. Both
run the same turns, each with the answers of the mounted filesystems and the time at that moment.
-/
import MountSpace.Space.Basic
import MountSpace.Proofs.Outline.Rose

namespace MountSpace

/-- a node of an outline: its name and what is mounted over it, the newest first -/
structure Label where
  name : String
  stack : List ExternalPath
  deriving DecidableEq, Repr

/-- a tree of names with stacks of mounts -/
abbrev Outline := Rose Label

/-- where a path leads: a node with nothing over it, one under a mount, or a place outside -/
inductive Spot where
  | directory (node : Outline)
  | mount (node : Outline) (top : ExternalPath)
  | real (name : String) (at_ : ExternalPath)

/-- what can be told about a place without its vertex: the kind, the name and the place outside -/
inductive Seen where
  | directory (name : String)
  | mount (name : String) (source : ExternalPath)
  | real (name : String) (at_ : ExternalPath)
  deriving DecidableEq, Repr

/-- what a spot shows -/
def Spot.seen : Spot → Seen
  | directory o => .directory o.label.name
  | mount o top => .mount o.label.name top
  | real name at_ => .real name at_

/-- what a place shows -/
def Place.seen : Place → Seen
  | directory _ dir => .directory dir.name
  | mount _ m => .mount m.name m.record.source
  | real name at_ => .real name at_

/-- the first element that answers to `p`, changed -/
def modifyFirst {α : Type} (p : α → Bool) (f : α → α) : List α → List α
  | [] => []
  | a :: rest => if p a then f a :: rest else a :: modifyFirst p f rest

namespace Outline

/-- the node as the end of a path -/
def spot (o : Outline) : Spot :=
  match o.label.stack with
  | [] => .directory o
  | top :: _ => .mount o top

/-- the node has this name, apart from case -/
def isNamed (name : String) (o : Outline) : Bool := Text.sameName o.label.name name

/-- what a filesystem's refusal to tell about a place becomes -/
def refusal (path : AbsolutePath) (walked : List String) (e : FsError) : FsError :=
  if e.isNotFound || e.isNotADirectory then missing walked
  else match e with
    | .escapesRoot _ | .permissionDenied _ => traversalPrevented path
    | e => e

/-- from a place outside along the names that are left, each of which has to exist -/
def outside (ext : External) (path : AbsolutePath) :
    List String → ExternalPath → String → List String → Except FsError Spot
  | _, at_, name, [] => .ok (.real name at_)
  | walked, at_, _, name :: rest =>
    let next : ExternalPath := { at_ with path := at_.path.joinName name }
    match (ext next.fs).getattr next.path with
    | .ok _ => outside ext path (walked ++ [name]) next name rest
    | .error e => .error (refusal path (walked ++ [name]) e)

/-- from a node along the names that are left -/
def resolve (ext : External) (path : AbsolutePath) : List String → List String → Outline → Except FsError Spot
  | _, [], o => .ok o.spot
  | walked, name :: rest, o =>
    match o.label.stack with
    | top :: _ => outside ext path walked top o.label.name (name :: rest)
    | [] =>
      match o.children.find? (isNamed name) with
      | some child => resolve ext path (walked ++ [name]) rest child
      | none => .error (missing (walked ++ [name]))

/-- the node at the end of a path changed, wherever the path leads in the outline -/
def modify (f : Outline → Outline) : List String → Outline → Outline
  | [], o => f o
  | name :: rest, o => .node o.label (modifyFirst (isNamed name) (modify f rest) o.children)

/-- one more child at the end, with nothing below or over it -/
def addChild (name : String) (o : Outline) : Outline := .node o.label (o.children ++ [.node ⟨name, []⟩ []])

/-- the first child of this name gone -/
def dropChild (name : String) (o : Outline) : Outline := .node o.label (o.children.eraseP (isNamed name))

/-- the node under another name -/
def setName (name : String) (o : Outline) : Outline := .node { o.label with name } o.children

/-- one more mount over the node -/
def push (source : ExternalPath) (o : Outline) : Outline :=
  .node { o.label with stack := source :: o.label.stack } o.children

/-- the newest mount over the node gone -/
def pop (o : Outline) : Outline := .node { o.label with stack := o.label.stack.tail } o.children

/-- the names of the children, in order -/
def entries (o : Outline) : List Entry :=
  (o.children.map fun child => Entry.directory child.label.name).mergeSort fun a b =>
    Text.compareNames a.name b.name != .gt

end Outline

/-- a namespace without an arena -/
structure Reference where
  id : NamespaceId
  root : Outline

namespace Reference

/-- nothing but the root -/
def new (id : NamespaceId) : Reference := ⟨id, .node ⟨"/", []⟩ []⟩

/-- refuse a path of another namespace -/
def check (ref : Reference) (path : AbsolutePath) : Except FsError Unit :=
  if path.owner = ref.id then .ok ()
  else .error (.crossNamespace
    ("path " ++ path.text ++ " belongs to " ++ path.owner.text ++ ", not " ++ ref.id.text))

/-- where a path leads -/
def resolve (ext : External) (ref : Reference) (path : AbsolutePath) : Except FsError Spot :=
  Outline.resolve ext path [] path.names ref.root

/-- where a path leads, or nowhere if it does not exist -/
def resolveOrMissing (ext : External) (ref : Reference) (path : AbsolutePath) : Except FsError (Option Spot) :=
  match ref.resolve ext path with
  | .ok spot => .ok (some spot)
  | .error (.notFound _) => .ok none
  | .error e => .error e

/-- the node at a path changed -/
def modify (f : Outline → Outline) (path : AbsolutePath) (ref : Reference) : Reference :=
  { ref with root := ref.root.modify f path.names }

/-- one new directory -/
def createDirectory (ext : External) (path : AbsolutePath) (ref : Reference) : Except FsError Unit × Reference :=
  match ref.check path with
  | .error e => (.error e, ref)
  | .ok _ =>
    match path.parent?, path.fileName? with
    | some parent, some name =>
      match ref.resolve ext parent with
      | .error e => (.error e, ref)
      | .ok (.directory o) =>
        if o.children.any (Outline.isNamed name) then (.error (.alreadyExists path.text), ref)
        else (.ok (), ref.modify (.addChild name) parent)
      | .ok _ => (.error (.permissionDenied ("cannot create directories inside a mount: " ++ path.text)), ref)
    | _, _ => (.ok (), ref)

/-- the missing directories along the names that are left, after those already walked -/
def createAlong (ext : External) (walked : List String) :
    List String → Reference → Except FsError Unit × Reference
  | [], ref => (.ok (), ref)
  | name :: rest, ref =>
    let here : AbsolutePath := ⟨ref.id, walked ++ [name]⟩
    match ref.resolveOrMissing ext here with
    | .error e => (.error e, ref)
    | .ok (some (.directory _)) => createAlong ext (walked ++ [name]) rest ref
    | .ok (some _) =>
      if rest = [] then (.error (.alreadyExists here.text), ref) else createAlong ext (walked ++ [name]) rest ref
    | .ok none =>
      match createDirectory ext here ref with
      | (.ok _, ref) | (.error (.alreadyExists _), ref) => createAlong ext (walked ++ [name]) rest ref
      | (.error e, ref) => (.error e, ref)

/-- a directory and all that are missing above it -/
def createDirectories (ext : External) (path : AbsolutePath) (ref : Reference) : Except FsError Unit × Reference :=
  match ref.check path with
  | .error e => (.error e, ref)
  | .ok _ => createAlong ext [] path.names ref

/-- take out a node with nothing below or over it -/
def delete (ext : External) (path : AbsolutePath) (ref : Reference) : Except FsError Unit × Reference :=
  match ref.check path with
  | .error e => (.error e, ref)
  | .ok _ =>
    match path.parent?, path.fileName? with
    | some parent, some name =>
      match ref.resolve ext path with
      | .error e => (.error e, ref)
      | .ok (.directory o) =>
        if o.children.isEmpty then (.ok (), ref.modify (.dropChild name) parent)
        else (.error (.directoryNotEmpty path.text), ref)
      | .ok (.mount _ _) =>
        (.error (.permissionDenied ("cannot delete a mount, unmount it instead: " ++ path.text)), ref)
      | .ok (.real _ _) => (.error (.permissionDenied ("cannot delete mounted content: " ++ path.text)), ref)
    | _, _ => (.error (.permissionDenied "cannot delete the namespace root"), ref)

/-- another name for a node within its parent, if the name is free or the same apart from case -/
def rename (ext : External) (source target : AbsolutePath) (ref : Reference) : Except FsError Unit × Reference :=
  match ref.check source, ref.check target with
  | .error e, _ => (.error e, ref)
  | .ok _, .error e => (.error e, ref)
  | .ok _, .ok _ =>
    match source.parent?, source.fileName?, target.parent?, target.fileName? with
    | some sourceParent, some oldName, some targetParent, some newName =>
      match ref.resolve ext source with
      | .error e => (.error e, ref)
      | .ok (.mount _ _) => (.error (.permissionDenied ("cannot rename a mount: " ++ source.text)), ref)
      | .ok (.real _ _) => (.error (.permissionDenied ("cannot rename mounted content: " ++ source.text)), ref)
      | .ok (.directory _) =>
        if !sourceParent.same targetParent then
          (.error (.invalidPath (target.text ++ " is not in the same directory as " ++ source.text)), ref)
        else match ref.resolveOrMissing ext target with
          | .error e => (.error e, ref)
          | .ok existing =>
            if existing.isSome && !Text.sameName oldName newName then (.error (.alreadyExists target.text), ref)
            else (.ok (), ref.modify (.setName newName) source)
    | _, _, _, _ => (.error (.invalidPath "cannot rename the namespace root"), ref)

/-- push a mount on what is at a path -/
def mount (ext : External) (request : Namespace.MountRequest) (ref : Reference) : Except FsError Unit × Reference :=
  match ref.check request.at_ with
  | .error e => (.error e, ref)
  | .ok _ =>
    if request.at_.isRoot then (.error (.permissionDenied "cannot mount over the namespace root"), ref)
    else match (ext request.source.fs).getattr request.source.path with
      | .error e => (.error e, ref)
      | .ok attributes =>
        if attributes.kind ≠ .directory then (.error (.notADirectory request.source.path.text), ref)
        else match ref.resolve ext request.at_ with
          | .error e => (.error e, ref)
          | .ok (.real _ _) =>
            (.error (.permissionDenied ("cannot mount inside an external filesystem: " ++ request.at_.text)), ref)
          | .ok _ => (.ok (), ref.modify (.push request.source) request.at_)

/-- pop the newest mount over what is at a path -/
def unmount (ext : External) (path : AbsolutePath) (ref : Reference) : Except FsError Unit × Reference :=
  match ref.check path with
  | .error e => (.error e, ref)
  | .ok _ =>
    match ref.resolve ext path with
    | .error e => (.error e, ref)
    | .ok (.mount _ _) => (.ok (), ref.modify .pop path)
    | .ok _ => (.error (.notAMount path.text), ref)

/-- the names in a directory -/
def listDirectory (ext : External) (path : AbsolutePath) (ref : Reference) : Except FsError (List Entry) :=
  match ref.check path with
  | .error e => .error e
  | .ok _ =>
    match ref.resolve ext path with
    | .error e => .error e
    | .ok (.directory o) => .ok o.entries
    | .ok (.mount _ top) => (ext top.fs).readdir top.path
    | .ok (.real _ at_) => (ext at_.fs).readdir at_.path

end Reference

/-! ## Turns -/

/-- a path all of whose names are valid, as every path read from a text is -/
abbrev NamedPath := { path : AbsolutePath // checkNames path.names = .ok () }

/-- what can be asked of a namespace -/
inductive Operation where
  | createDirectory (path : NamedPath)
  | createDirectories (path : NamedPath)
  | delete (path : NamedPath)
  | rename (source target : NamedPath)
  | mount (source : ExternalPath) (at_ : NamedPath)
  | unmount (path : NamedPath)
  | listDirectory (path : NamedPath)
  | resolve (path : NamedPath)

/-- an operation at a moment: what the mounted filesystems answer then, and the time -/
structure Turn where
  ext : External
  now : Time
  operation : Operation

/-- what an operation answers -/
inductive Answer where
  | done (result : Except FsError Unit)
  | listed (result : Except FsError (List Entry))
  | found (result : Except FsError Seen)

/-- the outcome of a change as an answer -/
def Answer.ofChange {σ : Type} (outcome : Except FsError Unit × σ) : Answer × σ := (.done outcome.1, outcome.2)

/-- one turn of a namespace -/
def Namespace.turn (ns : Namespace) (turn : Turn) : Answer × Namespace :=
  match turn.operation with
  | .createDirectory path => Answer.ofChange (ns.createDirectory turn.ext turn.now path.1)
  | .createDirectories path => Answer.ofChange (ns.createDirectories turn.ext turn.now path.1)
  | .delete path => Answer.ofChange (ns.delete turn.ext turn.now path.1)
  | .rename source target => Answer.ofChange (ns.rename turn.ext turn.now source.1 target.1)
  | .mount source at_ => Answer.ofChange (ns.mount turn.ext turn.now ⟨source, at_.1⟩)
  | .unmount path => Answer.ofChange (ns.unmount turn.ext path.1)
  | .listDirectory path => (.listed (ns.listDirectory turn.ext path.1), ns)
  | .resolve path => (.found ((ns.tree.resolve turn.ext path.1).map Place.seen), ns)

/-- one turn of the reference -/
def Reference.turn (ref : Reference) (turn : Turn) : Answer × Reference :=
  match turn.operation with
  | .createDirectory path => Answer.ofChange (ref.createDirectory turn.ext path.1)
  | .createDirectories path => Answer.ofChange (ref.createDirectories turn.ext path.1)
  | .delete path => Answer.ofChange (ref.delete turn.ext path.1)
  | .rename source target => Answer.ofChange (ref.rename turn.ext source.1 target.1)
  | .mount source at_ => Answer.ofChange (ref.mount turn.ext ⟨source, at_.1⟩)
  | .unmount path => Answer.ofChange (ref.unmount turn.ext path.1)
  | .listDirectory path => (.listed (ref.listDirectory turn.ext path.1), ref)
  | .resolve path => (.found ((ref.resolve turn.ext path.1).map Spot.seen), ref)

/-- the answers of some turns, in order, and the namespace after them -/
def Namespace.turns (ns : Namespace) : List Turn → List Answer × Namespace
  | [] => ([], ns)
  | turn :: rest =>
    let later := (ns.turn turn).2.turns rest
    ((ns.turn turn).1 :: later.1, later.2)

/-- the answers of some turns, in order, and the reference after them -/
def Reference.turns (ref : Reference) : List Turn → List Answer × Reference
  | [] => ([], ref)
  | turn :: rest =>
    let later := (ref.turn turn).2.turns rest
    ((ref.turn turn).1 :: later.1, later.2)

end MountSpace

/-
Paths of a namespace. An absolute path is a list of names from the root, a relative path a list of at least one name;
both belong to one namespace and never match a path of another. Texts are cut at each separator and every piece must be
a name, so a path has exactly one text and a text is read in exactly one way.

Equality, order and digest of paths fold case name by name and start with the owner, so one key settles all three.
-/
import MountSpace.Path.Name
import MountSpace.Text.Fold
import MountSpace.Text.Pieces

namespace MountSpace

/-- the number of a namespace; numbers are given out from 1 and never twice -/
abbrev NamespaceId := Nat

/-- a namespace as messages name it -/
def NamespaceId.text (id : NamespaceId) : String := "ns-" ++ toString id

/-- names with a separator between neighbours -/
def joinNames (names : List String) : String := String.ofList (Text.join '/' (names.map String.toList))

/-- the pieces of a text between its separators -/
def splitNames (text : List Char) : List String := (Text.split '/' text).map String.ofList

/-- names with case folded away, the key they are matched by -/
def foldNames (names : List String) : List (List Char) := names.map Text.fold

/-- one item that a path feeds to a hash function -/
inductive DigestItem where
  | owner (id : NamespaceId)
  | count (n : Nat)
  | letter (c : Char)
  | stop
  deriving DecidableEq, Repr

/-- what names feed to a hash function: their number, then each one's folded letters and a stop -/
def digestNames (names : List String) : List DigestItem :=
  .count names.length :: names.flatMap fun name => (Text.fold name).map .letter ++ [.stop]

/-- a path from the root of its namespace; no names means the root itself -/
structure AbsolutePath where
  owner : NamespaceId
  names : List String
  deriving DecidableEq, Repr

/-- a path to be read from somewhere else, with at least one name -/
structure RelativePath where
  owner : NamespaceId
  names : List String
  deriving DecidableEq, Repr

/-- the refusal of a path of one namespace where another's is needed -/
def crossing (given wanted : NamespaceId) : FsError :=
  .crossNamespace ("path from " ++ given.text ++ " used with " ++ wanted.text)

namespace RelativePath

/-- the names, if every one is valid and there is one -/
def ofNames (owner : NamespaceId) (names : List String) : Except FsError RelativePath :=
  match checkNames names with
  | .error e => .error e
  | .ok _ => if names = [] then .error (.invalidPath "relative paths cannot be empty") else .ok ⟨owner, names⟩

/-- read names with separators between them -/
def parse (owner : NamespaceId) (text : String) : Except FsError RelativePath :=
  if text.toList.head? = some '/' then
    .error (.invalidPath ("relative paths cannot begin with / (received: " ++ Text.quoted text ++ ")"))
  else ofNames owner (splitNames text.toList)

/-- the path as text -/
def text (p : RelativePath) : String := joinNames p.names

/-- the path with its kind and owner -/
def describe (p : RelativePath) : String := "RelativePath(" ++ p.owner.text ++ ":" ++ p.text ++ ")"

/-- the last name -/
def fileName (p : RelativePath) : String := p.names.getLastD ""

/-- one more name at the end -/
def join (p : RelativePath) (name : String) : Except FsError RelativePath :=
  match checkName name with
  | .error e => .error e
  | .ok _ => .ok ⟨p.owner, p.names ++ [name]⟩

/-- the same owner and the same names apart from case -/
def same (a b : RelativePath) : Bool :=
  a.owner == b.owner && a.names.length == b.names.length && (a.names.zip b.names).all fun p => Text.sameName p.1 p.2

/-- what the path feeds to a hash function -/
def digest (p : RelativePath) : List DigestItem := .owner p.owner :: digestNames p.names

end RelativePath

namespace AbsolutePath

/-- the root of a namespace -/
def root (owner : NamespaceId) : AbsolutePath := ⟨owner, []⟩

/-- the names below the root, if every one is valid -/
def ofNames (owner : NamespaceId) (names : List String) : Except FsError AbsolutePath :=
  match checkNames names with
  | .error e => .error e
  | .ok _ => .ok ⟨owner, names⟩

/-- read a separator alone as the root, and else a separator before every name -/
def parse (owner : NamespaceId) (text : String) : Except FsError AbsolutePath :=
  match text.toList with
  | ['/'] => .ok (root owner)
  | '/' :: rest => ofNames owner (splitNames rest)
  | _ => .error (.invalidPath ("absolute paths must begin with / (received: " ++ Text.quoted text ++ ")"))

/-- the path as text -/
def text (p : AbsolutePath) : String := "/" ++ joinNames p.names

/-- the path with its kind and owner -/
def describe (p : AbsolutePath) : String := "AbsolutePath(" ++ p.owner.text ++ ":" ++ p.text ++ ")"

/-- no names -/
def isRoot (p : AbsolutePath) : Bool := p.names.isEmpty

/-- the path without its last name; the root has no parent -/
def parent? (p : AbsolutePath) : Option AbsolutePath :=
  if p.names = [] then none else some ⟨p.owner, p.names.dropLast⟩

/-- the last name; the root has none -/
def fileName? (p : AbsolutePath) : Option String := p.names.getLast?

/-- one more name at the end -/
def join (p : AbsolutePath) (name : String) : Except FsError AbsolutePath :=
  match checkName name with
  | .error e => .error e
  | .ok _ => .ok ⟨p.owner, p.names ++ [name]⟩

/-- the order of paths: by owner, then name by name apart from case, a shorter path before its extensions -/
def compare (a b : AbsolutePath) : Ordering :=
  (Ord.compare a.owner b.owner).then (Ord.compare (foldNames a.names) (foldNames b.names))

/-- neither before nor after the other in the order -/
def same (a b : AbsolutePath) : Bool := compare a b == .eq

/-- what the path feeds to a hash function -/
def digest (p : AbsolutePath) : List DigestItem := .owner p.owner :: digestNames p.names

/-- the first names are those of the other path, apart from case and in the same namespace -/
def startsWith (p start : AbsolutePath) : Bool :=
  p.owner == start.owner && (foldNames start.names).isPrefixOf (foldNames p.names)

/-- every name of the relative path added at the end -/
def resolveRelative (p : AbsolutePath) (rel : RelativePath) : Except FsError AbsolutePath :=
  if rel.owner = p.owner then .ok ⟨p.owner, p.names ++ rel.names⟩ else .error (crossing rel.owner p.owner)

/-- the relative path from the first path to the second, which must lie strictly below it -/
def relativize (p target : AbsolutePath) : Except FsError RelativePath :=
  if target.owner ≠ p.owner then .error (crossing target.owner p.owner)
  else if target.startsWith p && target.names.length != p.names.length then
    .ok ⟨p.owner, target.names.drop p.names.length⟩
  else .error (.invalidPath (target.text ++ " is not strictly below " ++ p.text))

end AbsolutePath

/-- a path of either kind -/
inductive NamespacePath where
  | absolute (path : AbsolutePath)
  | relative (path : RelativePath)
  deriving DecidableEq, Repr

namespace NamespacePath

/-- a text is absolute exactly when it begins with a separator -/
def parse (owner : NamespaceId) (text : String) : Except FsError NamespacePath :=
  if text.toList.head? = some '/' then (AbsolutePath.parse owner text).map .absolute
  else (RelativePath.parse owner text).map .relative

/-- the path as text -/
def text : NamespacePath → String
  | absolute p => p.text
  | relative p => p.text

/-- the path starts at the root -/
def isAbsolute : NamespacePath → Bool
  | absolute _ => true
  | relative _ => false

/-- the same kind and the same path apart from case -/
def same : NamespacePath → NamespacePath → Bool
  | absolute a, absolute b => a.same b
  | relative a, relative b => a.same b
  | _, _ => false

end NamespacePath

/-- a relative path is added at the end, an absolute one takes the place of the first -/
def AbsolutePath.resolve (p : AbsolutePath) : NamespacePath → Except FsError AbsolutePath
  | .absolute other => if other.owner = p.owner then .ok other else .error (crossing other.owner p.owner)
  | .relative rel => p.resolveRelative rel

end MountSpace

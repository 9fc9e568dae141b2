/-
Paths inside a filesystem: any bytes, read as components. A path that begins with a separator is rooted. Empty pieces
and single dots do not count, except that a path may begin with a dot; two dots are a step of their own. Joining does
not normalise, so paths of one meaning have many texts.
-/
import MountSpace.Text.Lossy
import MountSpace.Text.Pieces

namespace MountSpace

/-- a path as its bytes -/
structure FsPath where
  bytes : List UInt8
  deriving DecidableEq, Repr

/-- one component of a path -/
inductive FsComponent where
  | root
  | here
  | up
  | normal (name : List UInt8)
  deriving DecidableEq, Repr

namespace FsPath

/-- the byte between components -/
def slash : UInt8 := 0x2f

/-- the byte of a dot -/
def dot : UInt8 := 0x2e

/-- the path of a text -/
def ofString (s : String) : FsPath := ⟨Text.encode s⟩

/-- the path as text, broken characters replaced -/
def text (p : FsPath) : String := Text.lossy p.bytes

/-- the root alone -/
def rootPath : FsPath := ⟨[slash]⟩

/-- the path begins with a separator -/
def isRooted (p : FsPath) : Bool := p.bytes.head? == some slash

/-- the component of a piece that is not at the beginning -/
def component? (piece : List UInt8) : Option FsComponent :=
  if piece = [] ∨ piece = [dot] then none
  else if piece = [dot, dot] then some .up
  else some (.normal piece)

/-- the components of a path -/
def components (p : FsPath) : List FsComponent :=
  let pieces := Text.split slash p.bytes
  if p.isRooted then .root :: pieces.filterMap component?
  else if pieces.head? = some [dot] then .here :: pieces.filterMap component?
  else pieces.filterMap component?

/-- the second path read from the first; a rooted path takes its place -/
def join (base p : FsPath) : FsPath :=
  if p.isRooted then p
  else if base.bytes = [] ∨ base.bytes.getLast? = some slash then ⟨base.bytes ++ p.bytes⟩
  else ⟨base.bytes ++ slash :: p.bytes⟩

/-- a name read from a path -/
def joinName (base : FsPath) (name : String) : FsPath := base.join (ofString name)

/-- the components of the first path begin with those of the second -/
def startsWith (p start : FsPath) : Bool := start.components.isPrefixOf p.components

/-- the rooted path of plain components -/
def ofNames (names : List (List UInt8)) : FsPath := ⟨slash :: Text.join slash names⟩

/-- pieces that hold no component, at the beginning of a list of pieces -/
def dropBlank (pieces : List (List UInt8)) : List (List UInt8) :=
  pieces.dropWhile fun piece => (component? piece).isNone

/-- a rooted path without its root, and without blank pieces at either end; any other path as it is -/
def withoutRoot (p : FsPath) : FsPath :=
  if p.isRooted then ⟨Text.join slash (dropBlank (dropBlank (Text.split slash p.bytes)).reverse).reverse⟩ else p

/-- pieces that hold no component, at the end of a list of pieces -/
def trimBlank (pieces : List (List UInt8)) : List (List UInt8) := (dropBlank pieces.reverse).reverse

/-- the pieces after so many components of them, from the next one on -/
def piecesAfter : Nat → List (List UInt8) → List (List UInt8)
  | 0, pieces => dropBlank pieces
  | n + 1, pieces => piecesAfter n (dropBlank pieces).tail

/-- how many components a path begins with that are not components of its pieces: its root, or a dot -/
def lead (p : FsPath) : Nat :=
  if p.isRooted then 1 else if (Text.split slash p.bytes).head? = some [dot] then 1 else 0

/-- a path without blank pieces at its end; the way it begins stays -/
def trimEnd (p : FsPath) : FsPath :=
  match Text.split slash p.bytes with
  | [] => p
  | first :: more =>
    if p.isRooted then ⟨slash :: Text.join slash (trimBlank more)⟩ else ⟨Text.join slash (first :: trimBlank more)⟩

/-- what is left of a path after the components of another, if it begins with these; blank pieces at the end of it do not
stay, nor do those where something was taken off -/
def stripPrefix? (p start : FsPath) : Option FsPath :=
  if p.startsWith start then
    match start.components.length with
    | 0 => some p.trimEnd
    | n + 1 => some ⟨Text.join slash (trimBlank (piecesAfter (n + 1 - p.lead) (Text.split slash p.bytes)))⟩
  else none

/-- the joined path, if what it has after the base is exactly one component and that component is the name -/
def containedJoin (base : FsPath) (name : String) : Option FsPath :=
  let joined := base.joinName name
  match joined.stripPrefix? base with
  | none => none
  | some rest => if rest.components = [.normal (Text.encode name)] then some joined else none

end FsPath

end MountSpace

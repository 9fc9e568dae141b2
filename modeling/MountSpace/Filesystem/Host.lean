/-
The host's file tree: regular files, directories and symbolic links under their physical paths, lists of names from the
root. A path is resolved physically: links are followed where they stand, two dots go to the directory above the place
reached so far, and only a directory can be walked through, even by an empty piece at the end. Forty links may be
followed on one walk. A path that is not rooted starts at the working directory and names nothing where there is none.

The host can be asked for an object only by a short enough path. A path of any length may be made physical, but the host
is asked on the way for each name, by the physical path up to it, so no name may be too far down the tree.
-/
import MountSpace.Filesystem.Basic
import MountSpace.Table

namespace MountSpace

/-- an object of the host -/
inductive HostEntry where
  | file (data : ByteArray) (mtime : Time)
  | directory (mtime : Time)
  | link (target : FsPath) (mtime : Time)

/-- a physical path: plain names from the root -/
abbrev HostKey := List (List UInt8)

/-- the tree: objects under their physical paths -/
structure Host where
  entries : Table HostKey HostEntry
  /-- the working directory, where paths that are not rooted start -/
  cwd : Option HostKey := none

namespace SystemError

/-- no such name -/
def noEntry : SystemError := ⟨.notFound, "No such file or directory (os error 2)"⟩

/-- something else is walked through as a directory -/
def notDirectory : SystemError := ⟨.notADirectory, "Not a directory (os error 20)"⟩

/-- more links than may be followed -/
def tooManyLinks : SystemError := ⟨.filesystemLoop, "Too many levels of symbolic links (os error 40)"⟩

/-- a name or a path of too many bytes -/
def nameTooLong : SystemError := ⟨.invalidFilename, "File name too long (os error 36)"⟩

/-- an offset that no file can have -/
def invalidArgument : SystemError := ⟨.invalidInput, "Invalid argument (os error 22)"⟩

/-- a zero byte, which no host path can hold -/
def zeroByte : SystemError := ⟨.invalidInput, "file name contained an unexpected NUL byte"⟩

/-- a directory where a file is needed -/
def isDirectory : SystemError := ⟨.isADirectory, "Is a directory (os error 21)"⟩

end SystemError

namespace Host

/-- the links that may be followed on one walk -/
def linkLimit : Nat := 40

/-- the longest name, in bytes -/
def nameLimit : Nat := 255

/-- the length that the text of a path must stay below, in bytes -/
def pathLimit : Nat := 4096

/-- a host with nothing but its root -/
def empty (now : Time) : Host := { entries := [([], .directory now)] }

/-- the object at a physical path -/
def get? (host : Host) (key : HostKey) : Option HostEntry := host.entries.lookup key

/-- the place from which the target of a link is read -/
def linkBase (here : HostKey) (target : FsPath) : HostKey := if target.isRooted then [] else here

/-- what a piece of a path leads to from a place: another place, or a link that has to be followed first -/
inductive Step where
  | place (there : HostKey)
  | link (target : FsPath)

/-- one piece further from a place -/
def step (host : Host) (here : HostKey) (piece : List UInt8) : Except SystemError Step :=
  match host.get? here with
  | some (.directory _) =>
    if piece = [] ∨ piece = [FsPath.dot] then .ok (.place here)
    else if piece = [FsPath.dot, FsPath.dot] then .ok (.place here.dropLast)
    else if nameLimit < piece.length then .error .nameTooLong
    else match host.get? (here ++ [piece]) with
      | none => .error .noEntry
      | some (.link target _) => .ok (.link target)
      | some _ => .ok (.place (here ++ [piece]))
  | _ => .error .notDirectory

/-- only a directory can have these pieces behind it: nothing but blank ones, or two dots before anything else -/
def needsDirectory (pieces : List (List UInt8)) : Bool :=
  !pieces.isEmpty && (pieces.findSome? FsPath.component?).all (· == .up)

/-- the length of the text by which the host is asked for the next name from a place. What has to be a directory is asked
for with a separator at the end, unless it is a link; nothing is asked of the directories above. -/
def asking (host : Host) (here : HostKey) : List (List UInt8) → Nat
  | [] => 0
  | piece :: rest =>
    match FsPath.component? piece with
    | none => host.asking here rest
    | some (.normal name) =>
      let text := (FsPath.ofNames (here ++ [name])).bytes.length
      match host.step here name with
      | .ok (.link _) => text
      | _ => if needsDirectory rest then text + 1 else text
    | some _ => 0

/-- follow pieces from a place, stepwise if the host is asked for each name on the way; the place reached is never a
link -/
def walk (host : Host) (stepwise : Bool) (links : Nat) (here : HostKey) (pieces : List (List UInt8)) :
    Except SystemError HostKey :=
  match pieces with
  | [] => .ok here
  | piece :: rest =>
    if stepwise ∧ pathLimit ≤ host.asking here (piece :: rest) then .error .nameTooLong
    else match host.step here piece with
      | .error e => .error e
      | .ok (.place there) => walk host stepwise links there rest
      | .ok (.link target) =>
        match links with
        | 0 => .error .tooManyLinks
        | left + 1 => walk host stepwise left (linkBase here target) (Text.split FsPath.slash target.bytes ++ rest)
termination_by (links, pieces.length)

/-- the place a path leads to -/
def follow (host : Host) (stepwise : Bool) (path : FsPath) : Except SystemError HostKey :=
  if 0 ∈ path.bytes then .error .zeroByte
  else if path.isRooted then host.walk stepwise linkLimit [] (Text.split FsPath.slash path.bytes)
  else match host.cwd with
    | some here =>
      if path.bytes = [] then .error .noEntry
      else host.walk stepwise linkLimit here (Text.split FsPath.slash path.bytes)
    | none => .error .noEntry

/-- the physical path of the object a path names -/
def canonical (host : Host) (path : FsPath) : Except SystemError HostKey := host.follow true path

/-- the place of the object a path names, for a path of which the host may be asked -/
def locate (host : Host) (path : FsPath) : Except SystemError HostKey :=
  if 0 ∈ path.bytes then .error .zeroByte
  else if pathLimit ≤ path.bytes.length then .error .nameTooLong
  else host.follow false path

/-- the object a path names, links followed -/
def stat (host : Host) (path : FsPath) : Except SystemError HostEntry :=
  match host.locate path with
  | .error e => .error e
  | .ok key =>
    match host.get? key with
    | some entry => .ok entry
    | none => .error .noEntry

/-- the content of the regular file a path names -/
def readFile (host : Host) (path : FsPath) : Except SystemError ByteArray :=
  match host.stat path with
  | .ok (.file data _) => .ok data
  | .ok _ => .error .isDirectory
  | .error e => .error e

/-! Changes to the tree, by whoever owns the host. -/

/-- an object at a physical path, in place of the one there may be -/
def set (host : Host) (key : HostKey) (entry : HostEntry) : Host :=
  { host with entries := host.entries.put key entry }

/-- the tree without an object and all that lies below it -/
def erase (host : Host) (key : HostKey) : Host :=
  { host with entries := host.entries.filter fun p => !key.isPrefixOf p.1 }

theorem get?_set (host : Host) (key other : HostKey) (entry : HostEntry) :
    (host.set key entry).get? other = if other == key then some entry else host.get? other :=
  Table.lookup_put key other entry host.entries

theorem get?_erase (host : Host) (key other : HostKey) :
    (host.erase key).get? other = if !key.isPrefixOf other then host.get? other else none :=
  Table.lookup_filter (fun k => !key.isPrefixOf k) other host.entries

/-- a name put into a directory, whose modification time follows -/
def putIn (host : Host) (now : Time) (directory : HostKey) (name : List UInt8) (entry : HostEntry) : Host :=
  (host.set (directory ++ [name]) entry).set directory (.directory now)

/-- walk to a directory and make the missing ones on the way -/
def makeAll (now : Time) : List (List UInt8) → HostKey → Host → Except SystemError (HostKey × Host)
  | [], here, host => .ok (here, host)
  | piece :: rest, here, host =>
    match host.walk false linkLimit here [piece] with
    | .ok there => makeAll now rest there host
    | .error e =>
      if e = .noEntry ∧ (host.get? (here ++ [piece])).isNone then
        makeAll now rest (here ++ [piece]) (host.putIn now here piece (.directory now))
      else .error e

/-- the pieces of a path that name something -/
def namedPieces (path : FsPath) : List (List UInt8) :=
  (Text.split FsPath.slash path.bytes).filter fun piece => (FsPath.component? piece).isSome

/-- the directory a path lies in, made if it is missing, and the last name of the path -/
def makeParent (host : Host) (now : Time) (path : FsPath) : Except SystemError (HostKey × List UInt8 × Host) :=
  match (namedPieces path).getLast? with
  | none => .error .isDirectory
  | some name =>
    match makeAll now (namedPieces path).dropLast [] host with
    | .error e => .error e
    | .ok (directory, host) => .ok (directory, name, host)

/-- make a directory and the missing ones above it -/
def makeDirectories (host : Host) (now : Time) (path : FsPath) : Except SystemError Host :=
  (makeAll now (namedPieces path) [] host).map (·.2)

/-- the directory and the name that a name in a directory stands for, at the end of the links there, if they lead to a
directory and nothing has that name in it -/
def vacancy (host : Host) (links : Nat) (directory : HostKey) (name : List UInt8) : Option (HostKey × List UInt8) :=
  match host.get? (directory ++ [name]), links with
  | none, _ => some (directory, name)
  | some (.link target _), left + 1 =>
    let pieces := Text.split FsPath.slash target.bytes
    match host.walk false left (linkBase directory target) (pieces.dropLast ++ [[]]) with
    | .ok there => vacancy host left there (pieces.getLastD [])
    | .error _ => none
  | some _, _ => none

/-- write a regular file, through a link where one stands, and make the missing directories above it -/
def writeFile (host : Host) (now : Time) (path : FsPath) (data : ByteArray) (mtime : Option Time) :
    Except SystemError Host :=
  match host.makeParent now path with
  | .error e => .error e
  | .ok (directory, name, host) =>
    let entry := HostEntry.file data (mtime.getD now)
    match host.walk false linkLimit directory [name] with
    | .ok key =>
      match host.get? key with
      | some (.file _ _) => .ok (host.set key entry)
      | _ => .error .isDirectory
    | .error e =>
      match host.vacancy linkLimit directory name with
      | some (directory, name) => if e = .noEntry then .ok (host.putIn now directory name entry) else .error e
      | none => .error e

/-- make a symbolic link, and the missing directories above it -/
def makeLink (host : Host) (now : Time) (path target : FsPath) : Except SystemError Host :=
  match host.makeParent now path with
  | .error e => .error e
  | .ok (directory, name, host) => .ok (host.putIn now directory name (.link target now))

/-- take a name away with all that lies below it; a link goes and its target stays -/
def remove (host : Host) (now : Time) (path : FsPath) : Except SystemError Host :=
  match host.makeParent now path with
  | .error e => .error e
  | .ok (directory, name, host) =>
    let key := directory ++ [name]
    match host.get? key with
    | none => .error .noEntry
    | some _ => .ok ((host.erase key).set directory (.directory now))

end Host

end MountSpace

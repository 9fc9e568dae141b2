/-
What can go wrong: one constructor for each kind of failure of a namespace or a mounted filesystem, with the text that
goes with it, and the errors of the operating system below them. `FsError.message` is the wording; the two tests
`isNotFound` and `isNotADirectory` see through to the kind of a system error, which is how the resolver tells absence
from failure.
-/

namespace MountSpace

/-- the kinds of error an operating system call reports -/
inductive SystemKind where
  | notFound | permissionDenied | connectionRefused | connectionReset | hostUnreachable | networkUnreachable
  | connectionAborted | notConnected | addrInUse | addrNotAvailable | networkDown | brokenPipe | alreadyExists
  | wouldBlock | notADirectory | isADirectory | directoryNotEmpty | readOnlyFilesystem | filesystemLoop
  | staleNetworkFileHandle | invalidInput | invalidData | timedOut | writeZero | storageFull | notSeekable
  | quotaExceeded | fileTooLarge | resourceBusy | executableFileBusy | deadlock | crossesDevices | tooManyLinks
  | invalidFilename | argumentListTooLong | interrupted | unsupported | unexpectedEof | outOfMemory | other
  deriving DecidableEq, Repr

/-- an error of the operating system: its kind and its own text -/
structure SystemError where
  kind : SystemKind
  message : String
  deriving DecidableEq, Repr

/-- a failure of a namespace, of a mounted filesystem or of a watch service -/
inductive FsError where
  /-- no such file or directory -/
  | notFound (what : String)
  | alreadyExists (what : String)
  /-- a step out of a mount, or a structural change to mounted content -/
  | permissionDenied (what : String)
  /-- content cannot be written through a namespace -/
  | readOnly
  | notADirectory (what : String)
  | isADirectory (what : String)
  | directoryNotEmpty (what : String)
  /-- a filesystem path that leads out of the filesystem's root -/
  | escapesRoot (what : String)
  | invalidPath (what : String)
  /-- unmounting something that is not a mount -/
  | notAMount (what : String)
  /-- a path or a filesystem of another namespace -/
  | crossNamespace (what : String)
  /-- the namespace or the watch service is closed -/
  | closed
  | system (error : SystemError)
  | other (what : String)
  /-- mounts of namespaces lead into one another and the path never ends -/
  | endlessMounts
  deriving DecidableEq, Repr

namespace FsError

/-- the wording of an error -/
def message : FsError → String
  | notFound what => "not found: " ++ what
  | alreadyExists what => "already exists: " ++ what
  | permissionDenied what => "permission denied: " ++ what
  | readOnly => "filesystem is read-only"
  | notADirectory what => "not a directory: " ++ what
  | isADirectory what => "is a directory: " ++ what
  | directoryNotEmpty what => "directory not empty: " ++ what
  | escapesRoot what => "path escapes root: " ++ what
  | invalidPath what => "invalid path: " ++ what
  | notAMount what => "not a filesystem mount: " ++ what
  | crossNamespace what => "wrong namespace: " ++ what
  | closed => "closed"
  | system e => "I/O error: " ++ e.message
  | other what => what
  | endlessMounts => "mounts lead back into each other"

/-- does not exist, as a namespace or an operating system says it -/
def isNotFound : FsError → Bool
  | notFound _ => true
  | system e => e.kind == .notFound
  | _ => false

/-- something that is no directory was used as one -/
def isNotADirectory : FsError → Bool
  | notADirectory _ => true
  | system e => e.kind == .notADirectory
  | _ => false

/-- the system error that comes nearest; a system error stays itself -/
def toSystem : FsError → SystemError
  | notFound what => ⟨.notFound, what⟩
  | alreadyExists what => ⟨.alreadyExists, what⟩
  | permissionDenied what => ⟨.permissionDenied, what⟩
  | readOnly => ⟨.readOnlyFilesystem, "filesystem is read-only"⟩
  | notADirectory what => ⟨.notADirectory, what⟩
  | isADirectory what => ⟨.isADirectory, what⟩
  | directoryNotEmpty what => ⟨.directoryNotEmpty, what⟩
  | escapesRoot what => ⟨.permissionDenied, what⟩
  | invalidPath what => ⟨.invalidInput, what⟩
  | notAMount what => ⟨.invalidInput, what⟩
  | crossNamespace what => ⟨.invalidInput, what⟩
  | closed => ⟨.other, "closed"⟩
  | system e => e
  | other what => ⟨.other, what⟩
  | endlessMounts => ⟨.filesystemLoop, message endlessMounts⟩

end FsError

end MountSpace

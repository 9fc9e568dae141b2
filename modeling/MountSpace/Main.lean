/-
The program. It takes a picture of the host directories that a run mounts, with all their files and with links shown by
what they lead to, and runs on it; a watch takes a new picture for every turn. Nothing is decided here.
-/
import Std.Time.DateTime.Timestamp
import MountSpace.CommandLine.Session

namespace MountSpace.Program

open MountSpace.CommandLine

/-- a time of the host -/
def hostTime (t : IO.FS.SystemTime) : Time := t.sec * 1000000000 + t.nsec.toNat

/-- the picture after a change, or as it was if the change cannot be made -/
def changed (host : Host) (change : Except SystemError Host) : Host :=
  match change with
  | .ok host => host
  | .error _ => host

/-- a directory gets its own time back after its names have been put in -/
def setTime (host : Host) (path : FsPath) (time : Time) : Host :=
  match host.canonical path with
  | .ok key => host.set key (.directory time)
  | .error _ => host

/-- a link that leads nowhere -/
def nowhere : FsPath := ⟨[0]⟩

/-- the object that a link leads to, so that its place is known; its content is left out -/
def drawTarget (host : Host) (place : String) : IO Host := do
  if (host.stat (.ofString place)).isOk then return host
  let about ← (← IO.FS.realPath place).metadata
  let time := hostTime about.modified
  if about.type == .dir then return changed host (host.makeDirectories time (.ofString place))
  return changed host (host.writeFile time (.ofString place) .empty (some time))

/-- a link, by the physical path of what it leads to -/
def drawLink (host : Host) (place : String) (time : Time) : IO Host := do
  try
    let target := (← IO.FS.realPath place).toString
    let host ← drawTarget host target
    return changed host (host.makeLink time (.ofString place) (.ofString target))
  catch _ => return changed host (host.makeLink time (.ofString place) nowhere)

/-- a file or a directory with all that is in it; what cannot be read is left out -/
partial def draw (host : Host) (place : String) : IO Host := do
  try
    let here ← IO.FS.realPath place
    let about ← here.metadata
    let time := hostTime about.modified
    let path := FsPath.ofString here.toString
    if about.type == .dir then
      let mut host := changed host (host.makeDirectories time path)
      for entry in ← here.readDir do
        let about ← entry.path.symlinkMetadata
        if about.type == .symlink then
          host ← drawLink host entry.path.toString (hostTime about.modified)
        else
          host ← draw host entry.path.toString
      return setTime host path time
    else
      return changed host (host.writeFile time path (← IO.FS.readBinFile here) (some time))
  catch _ => return host

/-- a place the arguments name: the object it leads to, and every link on the way shown as one link -/
def drawNamed (host : Host) (path : FsPath) : IO Host := do
  match String.fromUTF8? path.bytes.toByteArray with
  | none => return host
  | some place =>
    try
      let physical := (← IO.FS.realPath place).toString
      let host ← draw host physical
      if (host.canonical path).toOption == (host.canonical (.ofString physical)).toOption then return host
      return changed host (host.makeLink 0 path (.ofString physical))
    catch _ => return host

/-- an empty picture with its working directory -/
def blank : IO Host := do
  let here := FsPath.ofString (← IO.FS.realPath ".").toString
  let host := changed (Host.empty 0) ((Host.empty 0).makeDirectories 0 here)
  return { host with cwd := (host.canonical here).toOption }

/-- the picture that a run needs: its configuration file, and every directory it mounts -/
def picture (args : List String) : IO Host := do
  let host ← blank
  match parse args with
  | .error _ => return host
  | .ok i =>
    let host ← match i.config with
      | some path => drawNamed host path
      | none => pure host
    match settingsOf host i with
    | .error _ => return host
    | .ok settings => settings.mounts.foldlM (fun host m => drawNamed host m.source) host

/-- the time between two turns of a watch, in milliseconds -/
def interval (s : Watching) : Nat := ((s.world.services[s.service]?).map WatchService.interval).getD 1

/-- carry a run to its end -/
partial def carryOn (args : List String) : Activity → IO UInt32
  | .ended outcome => do
    (← IO.getStdout).write outcome.stdout
    IO.eprint outcome.stderr
    return outcome.code.toUInt32
  | .watching s => do
    IO.sleep (interval s).toUInt32
    let (text, activity) := s.turn (← picture args)
    IO.print text
    (← IO.getStdout).flush
    carryOn args activity

/-- a run from its beginning -/
def run (args : List String) : IO UInt32 := do
  let now ← Std.Time.Timestamp.now
  carryOn args (start (← picture args) now.toNanosecondsSinceUnixEpoch.val args)

end MountSpace.Program

def main (args : List String) : IO UInt32 := MountSpace.Program.run args

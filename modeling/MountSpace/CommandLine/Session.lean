/-
A run of the program. It builds one namespace from the host directories it is told to mount, and lists, prints or
watches what is in it. All but watching is done at once; a watch goes on in turns, each with the host as it is then.
-/
import MountSpace.CommandLine.Arguments
import MountSpace.CommandLine.Report
import MountSpace.Space.Configuration
import MountSpace.World.Watching

namespace MountSpace.CommandLine

/-- how a run ended: its exit code and what it wrote -/
structure Outcome where
  code : Nat
  stdout : ByteArray
  stderr : String

/-- a watch under way: the events of one key, for so many more batches or without end -/
structure Watching where
  world : World
  service : Nat
  key : KeyId
  path : AbsolutePath
  left : Option Nat

/-- a run that has ended, or that goes on watching -/
inductive Activity where
  | ended (outcome : Outcome)
  | watching (w : Watching)

/-- a run that did what it was asked to -/
def success (text : String) : Activity := .ended ⟨0, text.toUTF8, ""⟩

/-- a run that failed, with the messages from the outside in -/
def failed (messages : List String) : Activity := .ended ⟨1, .empty, report messages⟩

/-- the usage of the program, in short -/
def usage : String :=
  "Usage: mountspace [-c FILE] [-m SOURCE:AT]... [--poll-interval-ms N] COMMAND\n" ++
  "Commands: ls [PATH], cat PATH, stat PATH, mounts, watch PATH [--events KINDS] [--count N]\n"

/-- one name of a listing; a directory has a slash behind it -/
def entryLine (e : Entry) : String := e.name ++ (if e.kind = .directory then "/" else "") ++ "\n"

/-- whole seconds since the epoch; no time before it has any -/
def epochSeconds (t : Time) : Nat := (t / 1000000000).toNat

/-- the attributes of a path, a line each -/
def statLines (path : AbsolutePath) (a : Attributes) : String :=
  "path:  " ++ path.text ++ "\nkind:  " ++ a.kind.name ++ "\nsize:  " ++ toString a.size ++ "\nmtime: " ++
    toString (epochSeconds a.mtime) ++ "\n" ++
    match a.ctime with
    | some t => "ctime: " ++ toString (epochSeconds t) ++ "\n"
    | none => ""

/-- one mount of the namespace -/
def mountLine (r : MountRecord) : String := r.point.text ++ " <- " ++ r.source.path.text ++ "\n"

/-- one event of a watch -/
def eventLine (e : WatchEvent) : String := e.kind.name ++ " " ++ e.path.text ++ "\n"

/-- go on with a path of the namespace, or fail -/
def withPath (ns : Namespace) (text : String) (go : AbsolutePath → Activity) : Activity :=
  match AbsolutePath.parse ns.id text with
  | .error e => failed (("Invalid namespace path " ++ Text.quoted text) :: messages e)
  | .ok path => go path

/-- go on with an answer, or fail -/
def withAnswer {α : Type} (answer : Except FsError α) (go : α → Activity) : Activity :=
  match answer with
  | .error e => failed (messages e)
  | .ok a => go a

/-- begin to watch a path; a watch of no batches is over at once -/
def startWatch (w : World) (ns : Namespace) (path : AbsolutePath) (kinds : List EventKind) (count : Option Nat) :
    Activity :=
  withAnswer (w.watch ns.id) fun (service, w) =>
    match w.register service path (if kinds.isEmpty then EventKind.all else kinds) with
    | (.error e, _) => failed (messages e)
    | (.ok key, w) => if count = some 0 then success "" else .watching ⟨w, service, key, path, count⟩

/-- do what a command asks for in a namespace -/
def perform (w : World) (ns : Namespace) : Command → Activity
  | .list text => withPath ns text fun path =>
    withAnswer (ns.listDirectory w.external path) fun entries => success (String.join (entries.map entryLine))
  | .print text => withPath ns text fun path =>
    withAnswer (ns.readAll w.external path) fun data => .ended ⟨0, data, ""⟩
  | .stat text => withPath ns text fun path =>
    withAnswer (ns.readAttributes w.external path) fun a => success (statLines path a)
  | .mounts => success (String.join (ns.mounts.map mountLine))
  | .watch text kinds count => withPath ns text fun path => startWatch w ns path kinds count

/-- the settings of a run: those of the file, with the mounts of the arguments behind its own and their interval -/
def settingsOf (host : Host) (i : Invocation) : Except ConfigError Settings := do
  let settings ← match i.config with
    | some path => host.loadSettings path
    | none => .ok {}
  return { settings with mounts := settings.mounts ++ i.mounts, pollMs := i.pollMs.getD settings.pollMs }

/-- the namespace of a run, and its command done in it -/
def invoke (host : Host) (clock : Time) (i : Invocation) : Activity :=
  match settingsOf host i with
  | .error e => failed (e.message :: e.causes)
  | .ok settings =>
    let (id, w) := { World.new clock with host }.createNamespace settings
    match w.mountConfigured id with
    | (.error e, _) => failed ("Failed to mount configured directories" :: messages e)
    | (.ok _, w) =>
      match w.namespace? id with
      | some ns => perform w ns i.command
      | none => failed (messages .closed)

/-- a run of the program on a host, at a moment, with its arguments -/
def start (host : Host) (clock : Time) (args : List String) : Activity :=
  match parse args with
  | .error .help => success usage
  | .error .usage => .ended ⟨2, .empty, usage⟩
  | .ok i => invoke host clock i

/-- one turn of a watch, with the host as it is now: what it writes and how it goes on -/
def Watching.turn (s : Watching) (host : Host) : String × Activity :=
  match { s.world with host }.awaitKey s.service with
  | (.error e, _) => ("", failed (messages e))
  | (.ok none, world) => ("", .watching { s with world })
  | (.ok (some k), world) =>
    match world.services[s.service]? with
    | none => ("", failed (messages .closed))
    | some service =>
      let (events, service) := service.takeEvents k
      let (again, world) := (world.setService s.service service).reset s.service k
      let text := String.join (events.map eventLine)
      let left := s.left.map (· - 1)
      if !again then (text, failed ["watch on " ++ s.path.text ++ " is no longer valid"])
      else if left = some 0 then (text, success "")
      else (text, .watching { s with world, left })

end MountSpace.CommandLine

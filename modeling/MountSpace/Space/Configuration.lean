/-
Settings from a configuration file. What the file leaves out has its default and what it does not know is left alone; a
record may also be written as a list of its fields in order. A file that cannot be read is told apart from one whose
text is no settings.
-/
import MountSpace.Space.Settings
import MountSpace.Filesystem.Host
import MountSpace.Toml.Document

namespace MountSpace

/-- why there are no settings -/
inductive ConfigError where
  | unreadable (path : FsPath) (cause : SystemError)
  | malformed (path : FsPath)
  deriving DecidableEq, Repr

namespace ConfigError

/-- the wording of an error -/
def message : ConfigError → String
  | unreadable path _ => "Failed to read config from " ++ path.text
  | malformed path => "Failed to parse config from " ++ path.text

/-- the wording of what lies behind an error -/
def causes : ConfigError → List String
  | unreadable _ cause => [cause.message]
  | malformed _ => ["TOML parse error"]

end ConfigError

/-- a file whose bytes are no text -/
def SystemError.notText : SystemError := ⟨.invalidData, "stream did not contain valid UTF-8"⟩

/-- a field of a record, or the element in its place of a list; nothing else holds fields, and a moment none -/
def Value.member? (name : String) (index : Nat) : Value → Option (Option Value)
  | record fields => some (fields.lookup name)
  | list items => some items[index]?
  | moment => some none
  | _ => none

/-- a value read by `read`, or the default if there is none -/
def orDefault {α : Type} (default : α) (read : Value → Option α) : Option Value → Option α
  | none => some default
  | some v => read v

namespace MountSetting

/-- a directory to mount, from data -/
def ofValue? (v : Value) : Option MountSetting := do
  let source ← (← v.member? "source" 0)
  let at_ ← (← v.member? "at" 1)
  return ⟨.ofString (← source.text?), ← at_.text?⟩

end MountSetting

namespace Settings

/-- the time between two looks, from the settings of the watcher -/
def pollOfValue? (v : Value) : Option Nat := do
  orDefault ({} : Settings).pollMs Value.word? (← v.member? "poll_interval_ms" 0)

/-- the directories to mount, from data -/
def mountsOfValue? : Value → Option (List MountSetting)
  | .list items => items.mapM MountSetting.ofValue?
  | _ => none

/-- settings from data -/
def ofValue? (v : Value) : Option Settings := do
  let name ← orDefault ({} : Settings).name Value.text? (← v.member? "name" 0)
  let pollMs ← orDefault ({} : Settings).pollMs pollOfValue? (← v.member? "watch" 1)
  let mounts ← orDefault [] mountsOfValue? (← v.member? "mounts" 2)
  return { name, pollMs, mounts }

/-- settings from the text of a configuration file -/
def ofToml? (text : String) : Option Settings := (Toml.document? text).bind ofValue?

end Settings

/-- the settings in a configuration file of the host -/
def Host.loadSettings (host : Host) (path : FsPath) : Except ConfigError Settings :=
  match host.readFile path with
  | .error cause => .error (.unreadable path cause)
  | .ok data =>
    match String.fromUTF8? data with
    | none => .error (.unreadable path .notText)
    | some text =>
      match Settings.ofToml? text with
      | some settings => .ok settings
      | none => .error (.malformed path)

end MountSpace

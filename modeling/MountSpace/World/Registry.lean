/-
Namespaces by name. Under a name there is at most one open namespace; one that was closed behind the registry's back is
as good as gone and gives way to a new one. Closing a namespace closes the watch services on it first.
-/
import MountSpace.World.Edit

namespace MountSpace

namespace World

/-- close a namespace and before it the watch services on it; closing twice changes nothing -/
def closeNamespace (w : World) (id : NamespaceId) : World :=
  match w.namespace? id with
  | none => w
  | some ns =>
    if !ns.isOpen then w
    else
      let services := w.services.map fun s => if s.space = id then s.close else s
      { w with services }.setNamespace { ns with isOpen := false }

/-- the open namespace under a name -/
def registered? (w : World) (name : String) : Option Namespace :=
  match (w.registry.lookup name).bind w.namespace? with
  | some ns => if ns.isOpen then some ns else none
  | none => none

/-- the open namespace under the name of the settings, made if there is none -/
def registerNamespace (w : World) (settings : Settings) : NamespaceId × World :=
  match w.registered? settings.name with
  | some ns => (ns.id, w)
  | none =>
    let (id, w) := w.createNamespace settings
    (id, { w with registry := w.registry.put settings.name id })

/-- the open namespace under a name, or its absence -/
def findRegistered (w : World) (name : String) : Except FsError Namespace :=
  match w.registered? name with
  | some ns => .ok ns
  | none => .error (.notFound ("namespace " ++ name))

/-- close and forget the namespace under a name; false if the name was never used -/
def unregister (w : World) (name : String) : Bool × World :=
  match w.registry.lookup name with
  | none => (false, w)
  | some id => (true, { w with registry := w.registry.filter fun p => p.1 != name }.closeNamespace id)

/-- the names of the open namespaces, in order -/
def registeredNames (w : World) : List String :=
  ((w.registry.map Prod.fst).filter fun name => (w.registered? name).isSome).mergeSort fun a b => decide (a ≤ b)

end World

end MountSpace

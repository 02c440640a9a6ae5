import ScriptModules.Load.Host
import ScriptModules.Load.OneStep
import ScriptModules.Load.TwoStep
import ScriptModules.Project.Owners
import ScriptModules.Resolve.Host
import ScriptModules.Resolve.Search

/-!
# Requests to a session

A session resolves and loads modules, tells formats before a module is read, and looks up owners
and package types. What it learned for one request it remembers for the next: the manifests and
types of packages, and the owners of directories.
-/

namespace ScriptModules

open Project (Owners Registry)

namespace Resolve.Search

/-- The projects that a specifier is mapped by. The owner of the importing module is looked up for
names that may be mapped, and stands for all projects then. -/
def mappingProjects (s : Session) (specifier : String) (c : Context) :
    Step Owners Registry := do
  if Specifier.isDirectory specifier || !Specifier.isBare specifier ||
      Specifier.isVendored c.parent then
    return s.projects
  match c.parentPath? with
  | none => return s.projects
  | some parent =>
    let st ← get
    let (owner?, owners) := st.host.lookUp s.projects parent
    set { st with host := owners }
    return ⟨owner?.toList⟩

/-- Resolve one specifier, with the owner of the importing module looked up. -/
def attemptOwned (s : Session) (next : Resolver Owners) (again : Again Owners)
    (specifier : String) (c : Context) (fallback : Fallback) : Step Owners Target := do
  let projects ← mappingProjects s (Specifier.withoutNodePrefix s.capabilities specifier) c
  attempt { s with projects := projects } next again specifier c fallback

/-- Resolve a specifier with at most `depth` candidates inside one another. -/
def resolveOwnedWithin (s : Session) (next : Resolver Owners) (c : Context) : Nat → Again Owners
  | 0, specifier, _ => throw (.missing specifier c)
  | depth + 1, specifier, fallback =>
    attemptOwned s next (resolveOwnedWithin s next c depth) specifier c fallback

/-- Resolve a specifier, with the owner of the importing module looked up for every name that may
be mapped. -/
def resolveOwned (s : Session) (next : Resolver Owners) : Resolver Owners := fun specifier c =>
  tryCatch (resolveOwnedWithin s next c depthLimit specifier .allowed) fun f =>
    throw (f.relabel specifier)

end Resolve.Search

namespace Load

/-- Whether the settings of a project are asked for when a loaded module is prepared. -/
def needsOptions (url : Url) (loaded : Loaded) : Bool :=
  (loaded.source.bind Text.decode?).isSome &&
    (loaded.format == some .json || Location.isSource url.path) && !Location.isJson url.path

/-- The projects that the settings for a loaded module come from. Where they are asked for, the
owner of the file is looked up and stands for all projects. -/
def settingProjects (s : Session) (url : Url) (loaded : Loaded) : Step Owners Registry := do
  if !needsOptions url loaded then return s.projects
  match url.toPath? with
  | none => return s.projects
  | some path =>
    let st ← get
    let (owner?, owners) := st.host.lookUp s.projects path
    set { st with host := owners }
    return ⟨owner?.toList⟩

/-- Load the module of a URL, with the owner of its file looked up. -/
def loadOwned (setup : Setup) (next : Loader Owners) : Loader Owners := fun url c => do
  announce url
  let loaded ← next url (hostContext url c)
  let projects ← settingProjects setup.session url loaded
  prepare { setup with session := { setup.session with projects := projects } } url loaded

end Load

/-- What can be asked of a session. -/
inductive Request where
  | resolve (specifier : String) (c : Resolve.Context)
  | load (url : Url) (c : Load.Context)
  /-- The format of a module before it is read. -/
  | format (url : Url)
  /-- The project that owns a file. -/
  | owner (file : Path)
  /-- The format of the package around a file. -/
  | packageType (file : Path)

/-- What a session answers. -/
inductive Answer where
  | resolve (result : Except Resolve.Fault Resolve.Target)
  | load (result : Except Load.Fault Load.Loaded)
  | format (result : Except Load.Fault ModuleFormat)
  | owner (config : Option Project.Config)
  | packageType (result : Except Project.Fault ModuleFormat)

/-- What a session remembers of earlier requests, the maps of what it loaded, and the messages that
it sent. A fresh session remembers nothing. -/
structure Memory where
  packages : Package.Cache := {}
  owners : Owners := {}
  maps : SourceMap.Registry := {}
  sent : List Notification := []

/-- Answer a request. What was learned is remembered also when the answer is a fault. -/
def answer (setup : Load.Setup) (m : Memory) : Request → Answer × Memory
  | .resolve specifier c =>
    let (result, after) := Resolve.Search.resolveOwned setup.session
      (Resolve.Host.resolve setup.session) specifier c ⟨m.packages, m.owners⟩
    (.resolve result, { m with packages := after.packages, owners := after.host })
  | .load url c =>
    let (result, after) := Load.loadOwned setup (Load.Host.load setup.session) url c
      ⟨m.packages, m.maps, m.sent, m.owners⟩
    (.load result, ⟨after.packages, after.host, after.maps, after.sent⟩)
  | .format url =>
    let (result, after) := Load.formatBeforeReading setup.session url
      ⟨m.packages, m.maps, m.sent, m.owners⟩
    (.format result, ⟨after.packages, after.host, after.maps, after.sent⟩)
  | .owner file =>
    let (owner?, owners) := m.owners.lookUp setup.session.projects file
    (.owner owner?, { m with owners := owners })
  | .packageType file =>
    let (result, packages) := m.packages.packageType setup.session.files file
    (.packageType result, { m with packages := packages })

/-- What a session remembers after some requests. -/
def remembered (setup : Load.Setup) (m : Memory) (earlier : List Request) : Memory :=
  earlier.foldl (fun m r => (answer setup m r).2) m

end ScriptModules

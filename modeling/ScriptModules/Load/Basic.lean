import ScriptModules.Notification
import ScriptModules.Session
import ScriptModules.SourceMap.Registry
import ScriptModules.Transform.Basic
import ScriptModules.Url.File

/-!
# Loading

What a module is loaded with and as, how that can fail, and the steps that share the state of a run.
-/

namespace ScriptModules.Load

/-- What is known about a module before it is loaded. -/
structure Context where
  /-- The format that resolving decided, if any. -/
  format : Option ModuleFormat := none
  conditions : List String := ["node", "import"]
  /-- The attributes of the import, sorted by their keys. -/
  attributes : List (String × String) := []
  deriving DecidableEq, Repr

/-- Set a key of a list that is sorted by its keys. -/
def insertSorted (key value : String) : List (String × String) → List (String × String)
  | [] => [(key, value)]
  | (k, v) :: r =>
    if key == k then (key, value) :: r
    else if key < k then (key, value) :: (k, v) :: r
    else (k, v) :: insertSorted key value r

/-- Set an attribute. -/
def Context.withAttribute (key value : String) (c : Context) : Context :=
  { c with attributes := insertSorted key value c.attributes }

/-- A module as it is loaded. A module that the host synthesizes has no source. -/
structure Loaded where
  format : Option ModuleFormat := none
  source : Option (List UInt8) := none
  deriving DecidableEq, Repr

/-- Why a module cannot be loaded. -/
inductive Fault where
  | read (path : Path) (cause : Files.Fault)
  | unsupportedUrl (url : Url)
  | invalidUtf8 (url : Url)
  | transform (cause : TransformFault)
  | config (cause : Project.Fault)
  deriving DecidableEq, Repr

/-- The wording of a failure. -/
def Fault.text : Fault → String
  | read path cause => "failed to read " ++ path.text ++ ": " ++ cause.text
  | unsupportedUrl url => "cannot load '" ++ url.text ++ "': unsupported URL scheme"
  | invalidUtf8 url => "'" ++ url.text ++ "' is not valid UTF-8"
  | transform cause => cause.text
  | config cause => cause.text

/-- What changes while modules are loaded: what is known of the packages, the maps of what was
loaded, the messages that were sent, and the state of the host. -/
structure State (σ : Type) where
  packages : Package.Cache := {}
  maps : SourceMap.Registry := {}
  /-- The messages in the order they were sent. -/
  sent : List Notification := []
  host : σ

/-- A step of loading. What it changed stays when it fails. -/
abbrev Step (σ α : Type) := ExceptT Fault (StateM (State σ)) α

/-- How a host loads the module of a URL. -/
abbrev Loader (σ : Type) := Url → Context → Step σ Loaded

/-- Ask the packages. -/
def askPackages {σ α : Type} (ask : Package.Cache → Except Project.Fault α × Package.Cache) :
    Step σ α := do
  let s ← get
  let (answer, packages) := ask s.packages
  set { s with packages := packages }
  match answer with
  | .ok a => return a
  | .error cause => throw (.config cause)

end ScriptModules.Load

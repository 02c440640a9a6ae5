import ScriptModules.Session
import ScriptModules.Url.File

/-!
# Resolving

What a specifier is resolved from and to, how that can fail, and the steps that share the state of
a run.
-/

namespace ScriptModules.Resolve

/-- Where a specifier stands. -/
structure Context where
  /-- The importing module; the entry point has none. -/
  parent : Option Url := none
  /-- The conditions under which targets are chosen. -/
  conditions : List String := ["node", "import"]
  deriving DecidableEq, Repr

namespace Context

/-- The file of the importing module. -/
def parentPath? (c : Context) : Option Path :=
  (c.parent.filter (·.scheme == "file")).bind Url.toPath?

/-- Whether the importing module is a source that has to be transformed. -/
def parentIsSource (c : Context) : Bool := c.parent.any fun u => Location.isSource u.path

/-- The conditions with the default among them. -/
def allConditions (c : Context) : List String :=
  if c.conditions.contains "default" then c.conditions else c.conditions ++ ["default"]

end Context

/-- Where a module is, and its format if that is decided. -/
structure Target where
  url : Url
  format : Option ModuleFormat := none
  deriving DecidableEq, Repr

/-- The kinds of failures. -/
inductive FaultKind where
  | notFound
  | unsupportedDirectory
  | pathNotExported
  | importNotDefined
  | unknownBuiltin
  | invalidSpecifier
  | config
  deriving DecidableEq, Repr

/-- Why a specifier cannot be resolved. `specifier` is the text that is shown; `attempted` is the
candidate that was tried last. -/
inductive Fault where
  | notFound (specifier attempted : String) (parent : Option Url)
  | unsupportedDirectory (specifier attempted : String) (parent : Option Url)
  | pathNotExported (specifier subpath : String) (manifest : Path)
  | importNotDefined (specifier attempted : String) (manifest : Path)
  | unknownBuiltin (specifier : String)
  | invalidSpecifier (specifier reason : String)
  | config (cause : Project.Fault)
  deriving DecidableEq, Repr

namespace Fault

/-- The kind of a failure. -/
def kind : Fault → FaultKind
  | notFound .. => .notFound
  | unsupportedDirectory .. => .unsupportedDirectory
  | pathNotExported .. => .pathNotExported
  | importNotDefined .. => .importNotDefined
  | unknownBuiltin .. => .unknownBuiltin
  | invalidSpecifier .. => .invalidSpecifier
  | config .. => .config

/-- Whether another candidate may be tried after a failure. -/
def isRecoverable (f : Fault) : Bool :=
  match f.kind with
  | .notFound | .unsupportedDirectory | .pathNotExported | .importNotDefined => true
  | .unknownBuiltin | .invalidSpecifier | .config => false

/-- The specifier that is shown. -/
def specifier? : Fault → Option String
  | notFound s .. | unsupportedDirectory s .. | pathNotExported s .. | importNotDefined s ..
  | unknownBuiltin s | invalidSpecifier s _ => some s
  | config _ => none

/-- The candidate that was tried last. -/
def attempted? : Fault → Option String
  | notFound _ a _ | unsupportedDirectory _ a _ | importNotDefined _ a _ => some a
  | pathNotExported .. | unknownBuiltin _ | invalidSpecifier .. | config _ => none

/-- Show another specifier. -/
def relabel (s : String) : Fault → Fault
  | notFound _ a p => notFound s a p
  | unsupportedDirectory _ a p => unsupportedDirectory s a p
  | pathNotExported _ sub m => pathNotExported s sub m
  | importNotDefined _ a m => importNotDefined s a m
  | unknownBuiltin _ => unknownBuiltin s
  | invalidSpecifier _ r => invalidSpecifier s r
  | config c => config c

/-- The importing module in a message. -/
private def importedFrom (parent : Option Url) : String :=
  match parent with
  | some u => " imported from " ++ u.text
  | none => ""

/-- The wording of a failure. -/
def text : Fault → String
  | notFound s _ p => "Cannot find module '" ++ s ++ "'" ++ importedFrom p
  | unsupportedDirectory s _ p =>
    "Directory import '" ++ s ++ "' is not supported resolving ES modules" ++ importedFrom p
  | pathNotExported _ sub m =>
    "Package subpath '" ++ sub ++ "' is not defined by \x22exports\x22 in " ++ m.text
  | importNotDefined s _ m =>
    "Package import specifier '" ++ s ++ "' is not defined in " ++ m.text
  | unknownBuiltin s => "No such built-in module: " ++ s
  | invalidSpecifier s r => "Invalid module specifier '" ++ s ++ "': " ++ r
  | config c => c.text

/-- No module stands at a specifier. -/
def missing (s : String) (c : Context) : Fault := notFound s s c.parent

end Fault

/-- What changes while modules are resolved: what is known of the packages, and the state of the
host. -/
structure State (σ : Type) where
  packages : Package.Cache := {}
  host : σ

/-- A step of resolving. What it learned stays when it fails. -/
abbrev Step (σ α : Type) := ExceptT Fault (StateM (State σ)) α

/-- How a host resolves a specifier. -/
abbrev Resolver (σ : Type) := String → Context → Step σ Target

/-- Ask the packages. -/
def askPackages {σ α : Type} (ask : Package.Cache → Except Project.Fault α × Package.Cache) :
    Step σ α := do
  let s ← get
  let (answer, packages) := ask s.packages
  set { s with packages := packages }
  match answer with
  | .ok a => return a
  | .error cause => throw (.config cause)

end ScriptModules.Resolve

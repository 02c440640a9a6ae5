import ScriptModules.Host.Capabilities
import ScriptModules.Package.Cache
import ScriptModules.Project.Registry

/-!
# Sessions

What every step of one run shares: the working directory, what the host can do, the projects and
the files.
-/

namespace ScriptModules

/-- What a session is opened with. -/
structure SessionOptions where
  cwd : Path
  /-- The configuration to use in place of the nearest one. -/
  config : Option String := none
  /-- The version of the host; a host of unknown version can do everything. -/
  hostVersion : Option Host.Version := none
  deriving DecidableEq, Repr

namespace SessionOptions

/-- The variable that names a configuration. -/
def configVariable : String := "TSLOADER_TSCONFIG_PATH"

/-- The variable that gives the version of the host. -/
def versionVariable : String := "TSLOADER_NODE_VERSION"

/-- A version in the environment that cannot be read. -/
structure EnvironmentFault where
  raw : String
  cause : Host.Version.Fault
  deriving DecidableEq, Repr

/-- What was to be done with the version. -/
def EnvironmentFault.context (f : EnvironmentFault) : String :=
  "invalid " ++ versionVariable ++ " value '" ++ f.raw ++ "'"

/-- The options that the environment gives. An empty name of a configuration counts as none. -/
def ofEnvironment (cwd : Path) (config? version? : Option String) :
    Except EnvironmentFault SessionOptions :=
  let config := config?.filter (· != "")
  match version? with
  | none => .ok { cwd := cwd, config := config }
  | some raw =>
    match Host.Version.parseReported raw with
    | .ok version => .ok { cwd := cwd, config := config, hostVersion := some version }
    | .error cause => .error ⟨raw, cause⟩

/-- What the host of a session can do. -/
def capabilities (o : SessionOptions) : Host.Capabilities :=
  match o.hostVersion with
  | some version => .ofVersion version
  | none => {}

end SessionOptions

/-- What every step of a run shares. -/
structure Session where
  cwd : Path
  capabilities : Host.Capabilities
  projects : Project.Registry
  files : Files.Tree
  deriving Repr

/-- Open a session. A broken configuration is found here and not when it is first used. -/
def Session.open (files : Files.Tree) (o : SessionOptions) : Except Project.Fault Session :=
  (Project.Registry.discover files o.cwd o.config).map fun projects =>
    ⟨o.cwd, o.capabilities, projects, files⟩

/-- A session that belongs to no project. -/
def Session.withoutProjects (files : Files.Tree) (o : SessionOptions) : Session :=
  ⟨o.cwd, o.capabilities, {}, files⟩

end ScriptModules

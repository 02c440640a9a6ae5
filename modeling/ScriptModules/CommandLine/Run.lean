import ScriptModules.CommandLine.Failure
import ScriptModules.CommandLine.Report
import ScriptModules.Load.Host
import ScriptModules.Load.OneStep
import ScriptModules.Load.TwoStep
import ScriptModules.Resolve.Host
import ScriptModules.Resolve.Search

/-!
# Running a command

A run is a function of the files, the working directory, the environment and the arguments.
-/

namespace ScriptModules.CommandLine

/-- What a run leaves behind. -/
structure Outcome where
  code : Nat := 0
  output : String := ""
  errors : String := ""
  deriving DecidableEq, Repr

/-- The name and version of the program. -/
def versionText : String := "tsloader 0.1.0\n"

/-- How the program is used. -/
def usageText : String := "Usage: tsloader [OPTIONS] <COMMAND>\n"

/-- Open the session of an invocation. -/
def openSession (files : Files.Tree) (cwd : Path) (i : Invocation) : Except Failure Session := do
  let version ←
    match i.hostVersion with
    | none => pure none
    | some raw =>
      match Host.Version.parseReported raw with
      | .ok version => pure (some version)
      | .error cause => throw ⟨"invalid Node.js version '" ++ raw ++ "'", [cause.text]⟩
  match Session.open files { cwd := cwd, config := i.config, hostVersion := version } with
  | .ok session => return session
  | .error cause => throw ⟨"failed to load project configuration", configCauses cause⟩

/-- Where a specifier stands that is imported by a file, or is the entry point. -/
def contextOf (s : Session) (importer : Option String) : Resolve.Context :=
  { parent := importer.bind fun file => Url.ofPath? (s.cwd.join file) }

/-- Resolve a specifier, and tell what was learned of the packages. -/
def resolve (s : Session) (specifier : String) (c : Resolve.Context) :
    Except Failure (Resolve.Target × Package.Cache) :=
  let step : Resolve.Step Unit Resolve.Target :=
    Resolve.Search.resolve s (Resolve.Host.resolve s) specifier c
  match step.run { host := () } with
  | (.ok target, state) => .ok (target, state.packages)
  | (.error cause, _) =>
    .error ⟨"failed to resolve '" ++ specifier ++ "'", resolveCauses cause⟩

/-- A step that loads or fails for the user to see. -/
abbrev Job (α : Type) := ExceptT Failure (StateM (Load.State Unit)) α

/-- Say what a step of loading is for. -/
def attempting {α : Type} (context : String) (step : Load.Step Unit α) : Job α :=
  ExceptT.mk do
    match ← step.run with
    | .ok a => return .ok a
    | .error cause => return .error ⟨context, loadCauses cause⟩

/-- Load a module in one step. -/
def loadAtOnce (s : Session) (c : Resolve.Context) (t : Resolve.Target) : Job ModuleReport := do
  let loaded ← attempting ("failed to load '" ++ t.url.text ++ "'")
    (Load.load { session := s } (Load.Host.load s) t.url
      { format := t.format, conditions := c.conditions })
  return ⟨t.url, loaded.format, loaded.source.map Text.decodeLossy⟩

/-- Load a module in two steps and read its source in between. A module without a file is left to
the host. -/
def loadInSteps (s : Session) (t : Resolve.Target) : Job ModuleReport := do
  match t.url.toPath? with
  | none => return ⟨t.url, t.format, none⟩
  | some path =>
    let format ← attempting ("failed to get the format of '" ++ t.url.text ++ "'")
      (Load.formatBeforeReading s t.url)
    match s.files.readText path with
    | .error cause => throw ⟨"failed to read " ++ path.text, [cause.text]⟩
    | .ok raw =>
      let source ← attempting ("failed to transform '" ++ t.url.text ++ "'")
        (Load.prepareSource { session := s } raw t.url format)
      return ⟨t.url, some format, some source⟩

/-- Load the module of a target in the way of the host, and tell the messages that were sent. -/
def load (s : Session) (c : Resolve.Context) (t : Resolve.Target) (packages : Package.Cache) :
    Except Failure ModuleReport × List Notification :=
  let job := if s.capabilities.loadHook then loadAtOnce s c t else loadInSteps s t
  let (result, state) := job.run { packages := packages, host := () }
  (result, state.sent)

/-- What was written to standard error, and what is printed in the end or why nothing is. -/
def perform (s : Session) (style : Style) : Command → String × Except Failure String
  | .resolve specifier importer conditions =>
    let c := contextOf s importer
    let c := if conditions.isEmpty then c else { c with conditions := conditions }
    ("", (resolve s specifier c).map fun (target, _) => printTarget style target)
  | .load specifier importer reports =>
    let c := contextOf s importer
    match resolve s specifier c with
    | .error failure => ("", .error failure)
    | .ok (target, packages) =>
      let (result, sent) := load s c target packages
      (if reports then String.join (sent.map Notification.line) else "",
        result.map (printModule style))
  | .config place =>
    let queried := s.cwd.join (place.getD "index.ts")
    ("", .ok (printConfig style (s.projects.configFor? queried) queried))

/-- Run the command that the arguments ask for. -/
def run (files : Files.Tree) (cwd : Path) (e : Environment) (arguments : List String) : Outcome :=
  match readArguments e arguments with
  | .error .help => { output := usageText }
  | .error .version => { output := versionText }
  | .error .misuse => { code := 2, errors := usageText }
  | .ok invocation =>
    match openSession files cwd invocation with
    | .error failure => { code := 1, errors := failure.text }
    | .ok session =>
      match perform session invocation.style invocation.command with
      | (errors, .ok text) => { output := text ++ "\n", errors := errors }
      | (errors, .error failure) => { code := 1, errors := errors ++ failure.text }

end ScriptModules.CommandLine

import ScriptModules.Resolve.Basic
import ScriptModules.Specifier

/-!
# Searching for modules

Around the resolution of a host, bare names are mapped by the project, sources take priority over
what is compiled from them, and names without an extension and directories are tried with the
usual extensions. Every result has a format.
-/

namespace ScriptModules.Resolve.Search

variable {σ : Type}

/-- Whether further candidates are tried when the host fails. -/
inductive Fallback where
  | allowed
  /-- A candidate is not itself tried with extensions. -/
  | nested
  deriving DecidableEq, Repr

/-- Resolving a candidate in the same context. -/
abbrev Again (σ : Type) := String → Fallback → Step σ Target

/-- The extensions that are tried, in order. -/
def extensions : List String := [".js", ".json", ".ts", ".tsx", ".jsx"]

/-- Try candidates one after the other. The first failure is the one that is reported; one that is
not recoverable ends the search. -/
def tryEach (again : Again σ) (shown : String) :
    List String → Option Fault → Context → Step σ Target
  | [], first?, c => throw (first?.getD (.missing shown c))
  | candidate :: rest, first?, c =>
    tryCatch (again candidate .nested) fun f =>
      if f.isRecoverable then tryEach again shown rest (some (first?.getD (f.relabel shown))) c
      else throw f

/-- Try a specifier with each extension. -/
def probeExtensions (again : Again σ) (specifier : String) (c : Context) : Step σ Target :=
  tryEach again specifier (extensions.map (specifier ++ ·)) none c

/-- Try the index of a directory, and unless a directory was asked for, the specifier with each
extension after that. The failure of the index is the one that is reported. -/
def probeDirectory (again : Again σ) (specifier : String) (c : Context) : Step σ Target :=
  if Specifier.isDirectory specifier then
    tryCatch (probeExtensions again (specifier ++ "index") c) fun f =>
      throw (if f.isRecoverable then f.relabel specifier else f)
  else
    tryCatch (probeExtensions again (specifier ++ "/index") c) fun f =>
      if f.isRecoverable then
        tryCatch (probeExtensions again specifier c) fun g =>
          throw (if g.isRecoverable then f.relabel specifier else g)
      else throw f

/-- The first candidate that can be resolved, if any. A failure that `skips` does not pass over
ends the search. -/
def firstOf (attempt : String → Step σ Target) (skips : Fault → Bool) :
    List String → Step σ (Option Target)
  | [] => return none
  | candidate :: rest =>
    tryCatch (some <$> attempt candidate) fun f =>
      if skips f then firstOf attempt skips rest else throw f

/-- The configuration that maps the names of an importing module. -/
def mappingConfig? (s : Session) (c : Context) : Option Project.Config :=
  let owner? :=
    match c.parentPath? with
    | some parent => s.projects.configFor? parent
    | none => s.projects.root?
  owner?.filter Project.Config.hasMappings

/-- The URLs that a bare name is mapped to. Modules of vendored packages map nothing. -/
def mappedUrls (s : Session) (specifier : String) (c : Context) : List String :=
  if !Specifier.isBare specifier || Specifier.isVendored c.parent then []
  else
    match mappingConfig? s c with
    | some config => (config.candidates specifier).filterMap fun p => (Url.ofPath? p).map Url.text
    | none => []

/-- The sources that take priority over a specifier; only sources prefer sources. -/
def prioritySources (specifier : String) (c : Context) : List String :=
  if c.parentIsSource then Specifier.sourceAlternates specifier else []

/-- Decide the format of a target: by its extension, by its package, and dynamic for anything that
is no file. -/
def decideFormat (s : Session) (t : Target) : Step σ Target := do
  if t.format.isSome then return t
  let format ←
    if t.url.scheme == "file" then
      match Location.classify t.url.path with
      | some format => pure format
      | none =>
        match t.url.toPath? with
        | some path => askPackages fun cache => cache.packageType s.files path
        | none => pure .script
    else pure .dynamic
  return { t with format := some format }

/-- Failures after which a priority source is passed over. -/
def skipsSource (f : Fault) : Bool := f.kind == .notFound || f.kind == .pathNotExported

/-- What is done when the host failed. -/
def recover (again : Again σ) (specifier : String) (c : Context) (fallback : Fallback)
    (f : Fault) : Step σ Target :=
  if fallback == .nested then throw f
  else
    match f.kind with
    | .unsupportedDirectory =>
      tryCatch (probeDirectory again specifier c) fun g =>
        throw (if g.kind == .importNotDefined then f else g)
    | .notFound => probeExtensions again specifier c
    | _ => throw f

/-- Ask the host and decide the format of its answer. -/
def askHost (s : Session) (next : Resolver σ) (again : Again σ) (specifier : String) (c : Context)
    (fallback : Fallback) : Step σ Target := do
  let answer ← tryCatch (Sum.inl <$> next specifier c) fun f => return Sum.inr f
  match answer with
  | .inl target => decideFormat s target
  | .inr f => recover again specifier c fallback f

/-- Resolve one specifier, given how its candidates are resolved. -/
def attempt (s : Session) (next : Resolver σ) (again : Again σ) (specifier : String) (c : Context)
    (fallback : Fallback) : Step σ Target := do
  let specifier := Specifier.withoutNodePrefix s.capabilities specifier
  if Specifier.isDirectory specifier then probeDirectory again specifier c
  else
    match ← firstOf (again · .allowed) Fault.isRecoverable (mappedUrls s specifier c) with
    | some target => return target
    | none =>
      match ← firstOf (again · .nested) skipsSource (prioritySources specifier c) with
      | some target => return target
      | none => askHost s next again specifier c fallback

/-- Resolve a specifier with at most `depth` candidates inside one another. -/
def resolveWithin (s : Session) (next : Resolver σ) (c : Context) : Nat → Again σ
  | 0, specifier, _ => throw (.missing specifier c)
  | depth + 1, specifier, fallback =>
    attempt s next (resolveWithin s next c depth) specifier c fallback

/-- Candidates lie at most six deep: a directory has an index, which has a priority source, which
may be mapped to a file, which has the same again. -/
def depthLimit : Nat := 6

/-- Resolve a specifier. A failure shows the specifier as it was given. -/
def resolve (s : Session) (next : Resolver σ) : Resolver σ := fun specifier c =>
  tryCatch (resolveWithin s next c depthLimit specifier .allowed) fun f =>
    throw (f.relabel specifier)

end ScriptModules.Resolve.Search

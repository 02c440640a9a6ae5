import ScriptModules.Load.Preparation

/-!
# Loading in two steps

Older hosts ask for the format of a module first, read its source themselves, and have it prepared
then.
-/

namespace ScriptModules.Load

variable {σ : Type}

/-- The format of a module before it is read. JSON documents count as modules because they become
modules. -/
def formatBeforeReading (s : Session) (url : Url) : Step σ ModuleFormat := do
  if url.scheme != "file" then return .dynamic
  else if Location.isJson url.path || Location.isSource url.path then return .module
  else
    match Location.classify url.path with
    | some format => return format
    | none =>
      match url.toPath? with
      | some path => askPackages fun cache => cache.packageType s.files path
      | none => throw (.unsupportedUrl url)

/-- Prepare a source that was already read. -/
def prepareSource (setup : Setup) (source : String) (url : Url) (format : ModuleFormat) :
    Step σ String := do
  announce url
  if Location.isJson url.path || Location.isSource url.path then transpile setup url source
  else if format == .module then checkImports setup url source
  else return source

end ScriptModules.Load

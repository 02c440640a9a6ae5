import ScriptModules.Load.Basic

/-!
# The loading of the host

The host reads files as they are. Built-in modules have no source, and other URLs are refused.
-/

namespace ScriptModules.Load.Host

variable {σ : Type}

/-- The format of a file by its extension. -/
def formatOf (s : Session) (p : Path) : Step σ (Option ModuleFormat) :=
  match p.extension? with
  | some "mjs" => return some .module
  | some "cjs" => return some .script
  | some "json" => return some .json
  | some "wasm" => return some .wasm
  | some "js" => do return some (← askPackages fun cache => cache.packageType s.files p)
  | _ => return none

/-- Read a file. A format that is already decided is kept. -/
def loadFile (s : Session) (path : Path) (c : Context) : Step σ Loaded := do
  match s.files.read path with
  | .error cause => throw (.read path cause)
  | .ok source =>
    let format ←
      match c.format with
      | some format => pure (some format)
      | none => formatOf s path
    return { format := format, source := some source }

/-- Load the module of a URL as the host does. -/
def load (s : Session) : Loader σ := fun url c => do
  if url.scheme == "node" then return { format := some .builtin }
  else if url.scheme == "file" then
    match url.toPath? with
    | some path => loadFile s path c
    | none => throw (.unsupportedUrl url)
  else throw (.unsupportedUrl url)

end ScriptModules.Load.Host

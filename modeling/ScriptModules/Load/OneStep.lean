import ScriptModules.Load.Preparation

/-!
# Loading in one step

Around the loading of a host, sources are prepared, and executables whose format depends on their
package are told apart by their syntax.
-/

namespace ScriptModules.Load

variable {σ : Type}

/-- The context that the host is asked with: JSON documents are marked as such. -/
def hostContext (url : Url) (c : Context) : Context :=
  if Location.isJson url.path then c.withAttribute "type" "json" else c

/-- The format by which a source is run that needs no transform. A module of a package may still be
a script, but what the package says is a script is never made a module. -/
def decideFormat (url : Url) (format : Option ModuleFormat) (code : String) :
    Option ModuleFormat :=
  if format != some .script && Location.isAmbiguousScript url.path then
    if Grammar.usesModuleSyntax code then format.or (some .module) else some .script
  else format

/-- Prepare what the host loaded. -/
def prepare (setup : Setup) (url : Url) (loaded : Loaded) : Step σ Loaded := do
  match loaded.source with
  | none => return loaded
  | some bytes =>
    match Text.decode? bytes with
    | none => throw (.invalidUtf8 url)
    | some code =>
      if loaded.format == some .json || Location.isSource url.path then
        let code ← transpile setup url code
        return { format := some .module, source := some (Text.utf8 code.toList) }
      else
        let format := decideFormat url loaded.format code
        if format == some .module then
          let code ← checkImports setup url code
          return { format := format, source := some (Text.utf8 code.toList) }
        else return { format := format, source := some bytes }

/-- Load the module of a URL. -/
def load (setup : Setup) (next : Loader σ) : Loader σ := fun url c => do
  announce url
  prepare setup url (← next url (hostContext url c))

end ScriptModules.Load

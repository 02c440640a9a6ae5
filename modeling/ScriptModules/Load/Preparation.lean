import ScriptModules.Load.Basic
import ScriptModules.SourceMap.Document
import ScriptModules.Transform.DynamicImport
import ScriptModules.Transform.JsonModule
import ScriptModules.Transform.TypeStripping

/-!
# Preparing sources

Typed sources and JSON documents become modules, and dynamic imports in modules are checked. The
map of the result is registered under its URL and written after it for hosts that read it there.
-/

namespace ScriptModules.Load

variable {σ : Type}

/-- The code that was made of a source, and its map if there is one. -/
structure Product where
  code : String
  map? : Option SourceMap
  deriving DecidableEq, Repr

/-- What a transform gives always has a map. -/
def Product.ofTransformed (t : Transformed) : Product := ⟨t.code, some t.map⟩

/-- What modules are prepared with. -/
structure Setup where
  session : Session
  /-- How typed sources become modules. -/
  transformer : String → Path → TransformOptions → Except TransformFault Product :=
    fun source path options => (stripTypes source path options).map .ofTransformed

/-- The file of a URL, or else the text of the URL. -/
def locationOf (url : Url) : Path := url.toPath?.getD ⟨url.text⟩

/-- The settings of the project that owns and includes the file of a URL. -/
def optionsFor (s : Session) (url : Url) : TransformOptions :=
  match url.toPath? with
  | none => {}
  | some path =>
    ⟨((s.projects.configFor? path).filter (·.includes path)).map (·.compilerOptions)⟩

/-- Code with the comment that holds its map on a line of its own. -/
def withMapComment (code : String) (map : SourceMap) : String :=
  (if Text.endsWith "\n" code then code else code ++ "\n") ++ map.toComment

/-- Register the map of what was made of a source, and write it after the code if the host reads
it there. Without a map there is only the code. -/
def attachMap (s : Session) (url : Url) (made : Product) : Step σ String := do
  match made.map? with
  | none => return made.code
  | some map =>
    let map := { map with file := some url.text }
    modify fun state => { state with maps := state.maps.set url.text map }
    return if s.capabilities.inlineSourceMaps then withMapComment made.code map else made.code

/-- Make a module of a typed source or a JSON document. -/
def transpile (setup : Setup) (url : Url) (code : String) : Step σ String := do
  let path := locationOf url
  let made :=
    if Location.isJson url.path then (JsonModule.transform code path).map .ofTransformed
    else setup.transformer code path (optionsFor setup.session url)
  match made with
  | .ok made => attachMap setup.session url made
  | .error cause => throw (.transform cause)

/-- Check the dynamic imports of a module. A module without any stays as it is. -/
def checkImports (setup : Setup) (url : Url) (code : String) : Step σ String := do
  let path := locationOf url
  match DynamicImport.rewrite? code path (.ofPath path) with
  | some t => attachMap setup.session url (.ofTransformed t)
  | none => return code

/-- Tell that the module of a URL is depended on. -/
def announce (url : Url) : Step σ Unit :=
  modify fun state => { state with sent := state.sent ++ [.dependency url.text] }

end ScriptModules.Load

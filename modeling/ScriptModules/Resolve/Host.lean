import ScriptModules.Package.Targets
import ScriptModules.Resolve.Basic
import ScriptModules.Specifier

/-!
# The resolution of the host

The host takes specifiers as they are written: built-in modules, files that exist, other URLs, and
packages by their tables.
-/

namespace ScriptModules.Resolve.Host

open Json (Value)

variable {σ : Type}

/-- The directory that relative names start from. -/
def baseDir (s : Session) (c : Context) : Path := (c.parentPath?.bind Path.parent?).getD s.cwd

/-- The URL that relative specifiers start from. -/
def baseUrl (s : Session) (c : Context) : Except Fault Url :=
  match c.parent with
  | some u => .ok u
  | none =>
    match Url.ofDirectory? s.cwd with
    | some u => .ok u
    | none => .error (.invalidSpecifier s.cwd.text "working directory is not absolute")

/-- Resolve the name of a built-in module. -/
def resolveBuiltin (specifier name : String) : Except Fault Target :=
  if !Specifier.isBuiltin name then .error (.unknownBuiltin specifier)
  else
    match Url.parse (Specifier.nodePrefix ++ name) with
    | .ok url => .ok ⟨url, some .builtin⟩
    | .error f => .error (.invalidSpecifier specifier f.text)

/-- The format of a file by its extension. -/
def formatOf (s : Session) (p : Path) : Step σ (Option ModuleFormat) :=
  match p.extension? with
  | some "mjs" => return some .module
  | some "cjs" => return some .script
  | some "json" => return some .json
  | some "wasm" => return some .wasm
  | some "js" => do return some (← askPackages fun cache => cache.packageType s.files p)
  | _ => return none

/-- Resolve a URL of a file. The file has to be there and be no directory. -/
def resolveFile (s : Session) (url : Url) (specifier : String) (c : Context) : Step σ Target := do
  match url.toPath? with
  | none =>
    throw (.invalidSpecifier specifier ("'" ++ url.text ++ "' is not a local file URL"))
  | some path =>
    if s.files.isDirectory path then
      throw (.unsupportedDirectory specifier specifier c.parent)
    else if !s.files.isFile path then throw (.missing specifier c)
    else return ⟨url, ← formatOf s path⟩

/-- The URL of a path. -/
def fileUrl (p : Path) : Except Fault Url :=
  match Url.ofPath? p.normalize with
  | some u => .ok u
  | none => .error (.invalidSpecifier p.normalize.text "not an absolute path")

/-- The name of a package and the subpath after it. A scope belongs to the name. -/
def splitPackage (specifier : String) : String × String :=
  let cs := specifier.toList
  let first := cs.takeWhile (· != '/')
  let name :=
    if cs.head? == some '@' && first.length < cs.length then
      first ++ '/' :: (cs.drop (first.length + 1)).takeWhile (· != '/')
    else first
  (String.ofList name, String.ofList (cs.drop name.length))

/-- Resolve a name in a package that is installed in a directory above. -/
def resolvePackage (s : Session) (specifier : String) (c : Context) : Step σ Target := do
  let (name, rest) := splitPackage specifier
  let subpath := if rest == "" then "." else "." ++ rest
  let places := (baseDir s c).ancestors.map fun dir => (dir.join "node_modules").join name
  match places.find? s.files.isDirectory with
  | none => throw (.missing specifier c)
  | some dir =>
    let manifestPath := dir.join "package.json"
    let manifest ← askPackages fun cache =>
      match cache.read s.files manifestPath with
      | .ok (v, cache) => (.ok v, cache)
      | .error f => (.error f, cache)
    match manifest.bind (Value.get? "exports") with
    | some exports =>
      match Package.exportTarget? exports subpath c.allConditions with
      | none => throw (.pathNotExported specifier subpath manifestPath)
      | some target => resolveFile s (← fileUrl (dir.join target)) specifier c
    | none =>
      let path :=
        if subpath == "." then
          let main? := (manifest.bind (Value.get? "main")).bind Value.string?
          ((main?.map dir.join).filter s.files.isFile).getD (dir.join "index.js")
        else dir.join (String.ofList (rest.toList.drop 1))
      resolveFile s (← fileUrl path) specifier c

/-- Resolve a name of the package's own. -/
def resolveImport (s : Session) (specifier : String) (c : Context) : Step σ Target := do
  let dir := baseDir s c
  match ← askPackages fun cache => cache.nearest s.files dir with
  | none => throw (.importNotDefined specifier specifier (dir.join "package.json"))
  | some (manifest, value) =>
    let target? := (value.get? "imports").bind fun imports =>
      Package.importTarget? imports specifier c.allConditions
    match target? with
    | none => throw (.importNotDefined specifier specifier manifest)
    | some target =>
      if Text.startsWith "./" target then
        let packageDir := manifest.parent?.getD dir
        resolveFile s (← fileUrl (packageDir.join target)) specifier c
      else resolvePackage s target c

/-- Resolve a specifier as the host does. -/
def resolve (s : Session) : Resolver σ := fun specifier c => do
  match Text.dropPrefix? Specifier.nodePrefix specifier with
  | some name =>
    if s.capabilities.nodePrefix then resolveBuiltin specifier name
    else throw (.unknownBuiltin specifier)
  | none =>
    if Specifier.isBuiltin specifier then resolveBuiltin specifier specifier
    else if Specifier.isPath specifier then
      match (← baseUrl s c).join specifier with
      | .ok url => resolveFile s url specifier c
      | .error f => throw (.invalidSpecifier specifier f.text)
    else if Specifier.hasScheme specifier then
      match Url.parse specifier with
      | .ok url => return ⟨url, none⟩
      | .error f => throw (.invalidSpecifier specifier f.text)
    else if specifier.toList.head? == some '#' then resolveImport s specifier c
    else resolvePackage s specifier c

end ScriptModules.Resolve.Host

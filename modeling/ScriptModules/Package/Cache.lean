import ScriptModules.Files.Tree
import ScriptModules.Json.Reader
import ScriptModules.ModuleFormat
import ScriptModules.Project.Config

/-!
# Package manifests

Manifests are read once. A manifest that is not there stays absent, and the type that a package
declares stays as it was when it was first asked for.
-/

namespace ScriptModules.Package

open Json (Value)
open Project (Fault)

/-- What is known of the packages. -/
structure Cache where
  manifests : List (List Path.Part × Option Value) := []
  types : List (List Path.Part × ModuleFormat) := []
  deriving Repr

namespace Cache

/-- Read a manifest, or find that there is none. -/
def read (t : Files.Tree) (c : Cache) (manifest : Path) : Except Fault (Option Value × Cache) :=
  match c.manifests.lookup manifest.parts with
  | some known => .ok (known, c)
  | none =>
    let keep (value : Option Value) : Option Value × Cache :=
      (value, { c with manifests := (manifest.parts, value) :: c.manifests })
    match t.readText manifest with
    | .error .notFound => .ok (keep none)
    | .error cause => .error (.read manifest cause)
    | .ok content =>
      match Json.parse content with
      | .error cause => .error (.parse manifest cause)
      | .ok value => .ok (keep (some value))

/-- Look for a manifest in one directory after the other, but in none that holds packages. A fault
comes with what was learned before it. -/
def nearestAmong (t : Files.Tree) :
    List Path → Cache → Except Fault (Option (Path × Value)) × Cache
  | [], c => (.ok none, c)
  | dir :: above, c =>
    if dir.fileName? == some "node_modules" then (.ok none, c)
    else
      let manifest := dir.join "package.json"
      match read t c manifest with
      | .error fault => (.error fault, c)
      | .ok (some value, c) => (.ok (some (manifest, value)), c)
      | .ok (none, c) => nearestAmong t above c

/-- The nearest manifest at or above a directory. -/
def nearest (t : Files.Tree) (c : Cache) (dir : Path) :
    Except Fault (Option (Path × Value)) × Cache :=
  nearestAmong t dir.ancestors c

/-- The format that a manifest declares for its package. -/
def declaredFormat (manifest : Value) : ModuleFormat :=
  if ((manifest.get? "type").bind Value.string?) == some "module" then .module else .script

/-- The format of the package around a file. Outside of packages, files are scripts. -/
def packageType (t : Files.Tree) (c : Cache) (file : Path) :
    Except Fault ModuleFormat × Cache :=
  let dir := file.parent?.getD file
  match nearest t c dir with
  | (.error fault, c) => (.error fault, c)
  | (.ok none, c) => (.ok .script, c)
  | (.ok (some (manifest, value)), c) =>
    let boundary := (manifest.parent?.getD dir).parts
    match c.types.lookup boundary with
    | some known => (.ok known, c)
    | none =>
      let format := declaredFormat value
      (.ok format, { c with types := (boundary, format) :: c.types })

end Cache

end ScriptModules.Package

import ScriptModules.Path

/-!
# Module formats

How a loaded module is interpreted, and what its location alone tells about that.
-/

namespace ScriptModules

/-- The execution mode of a module. -/
inductive ModuleFormat where
  /-- An executable script that is no module. -/
  | script
  /-- An executable module. -/
  | module
  /-- A data document. -/
  | json
  /-- A module that the host provides. -/
  | builtin
  /-- A module that the host synthesizes. -/
  | dynamic
  | wasm
  deriving DecidableEq, Repr

namespace ModuleFormat

/-- The name of a format. -/
def text : ModuleFormat → String
  | script => "commonjs"
  | module => "module"
  | json => "json"
  | builtin => "builtin"
  | dynamic => "dynamic"
  | wasm => "wasm"

/-- All formats. -/
def all : List ModuleFormat := [script, module, json, builtin, dynamic, wasm]

/-- The format of a name. -/
def ofName? (name : String) : Option ModuleFormat := all.find? (·.text == name)

/-- The format that a user names; scripts have a second name. -/
def ofUserName? (name : String) : Option ModuleFormat :=
  if name == "script" then some script else ofName? name

/-- The wording for a name that is no format. -/
def unknownText (name : String) : String := "unknown module format: " ++ name

end ModuleFormat

namespace Location

/-- A location without its query and fragment. -/
def bare (location : String) : String :=
  String.ofList (location.toList.takeWhile fun c => c != '?' && c != '#')

/-- The extension of a location. -/
def extension? (location : String) : Option String := (Path.mk (bare location)).extension?

/-- The format that an extension fixes. Extensions that are left to the package have none. -/
def classify (location : String) : Option ModuleFormat :=
  match extension? location with
  | some "json" => some .json
  | some "cjs" | some "cts" => some .script
  | some "mjs" | some "mts" => some .module
  | _ => none

/-- The endings of sources that always have to be transformed. -/
def sourceEndings : List String := [".ts", ".cts", ".mts", ".tsx", ".jsx"]

/-- Whether a location names a source that has to be transformed. -/
def isSource (location : String) : Bool :=
  sourceEndings.any fun ending => ending.toList.isSuffixOf (bare location).toList

/-- Whether a location names a JSON document. -/
def isJson (location : String) : Bool := extension? location == some "json"

/-- Whether a location names an executable whose format depends on its package. -/
def isAmbiguousScript (location : String) : Bool := extension? location == some "js"

end Location

end ScriptModules

import ScriptModules.CommandLine.Arguments
import ScriptModules.Json.Printer
import ScriptModules.Project.Registry
import ScriptModules.Resolve.Basic
import ScriptModules.Text.Blank

/-!
# Reports

What a command prints: a text to be read, or the same as JSON.
-/

namespace ScriptModules.CommandLine

open Json (Value)

/-- A value in a style that is JSON. -/
def printJson (style : Style) (v : Value) : String :=
  match style with
  | .compact => v.compact
  | .json | .text => v.indented

/-- The name of a format in a text. -/
def formatName (format : Option ModuleFormat) : String :=
  (format.map ModuleFormat.text).getD "unknown"

/-- The name of a format in JSON. -/
def formatValue (format : Option ModuleFormat) : Value := .ofOption (format.map ModuleFormat.text)

/-- Print where a module is. -/
def printTarget (style : Style) (t : Resolve.Target) : String :=
  match style with
  | .text => t.url.text ++ " (" ++ formatName t.format ++ ")"
  | _ => printJson style (.object [("url", .string t.url.text), ("format", formatValue t.format)])

/-- A module as it is printed. A module that the host provides has no source. -/
structure ModuleReport where
  url : Url
  format : Option ModuleFormat
  source : Option String
  deriving DecidableEq, Repr

/-- Print a module: in text, its source alone. -/
def printModule (style : Style) (r : ModuleReport) : String :=
  match style with
  | .text =>
    match r.source with
    | some source => source
    | none => r.url.text ++ " (" ++ formatName r.format ++ "): source provided by the host"
  | _ =>
    printJson style (.object [("url", .string r.url.text), ("format", formatValue r.format),
      ("source", .ofOption r.source)])

/-- Text filled up with blanks to a width. -/
private def padded (width : Nat) (s : String) : String :=
  s ++ String.ofList (List.replicate (width - s.length) ' ')

/-- The lines of a mapping and of the references under their headings. -/
private def listLines (heading : String) (lines : List String) : List String :=
  if lines.isEmpty then [] else heading :: lines.map ("  " ++ ·)

/-- A configuration as text. -/
def configText (c : Project.Config) (queried : Path) : String :=
  let mapping (m : Project.Mapping) : String :=
    padded 24 m.pattern ++ " -> " ++ ", ".intercalate (m.substitutions.map (·.template))
  let lines :=
    ["Config:     " ++ c.path.text] ++
    (c.baseUrl.map fun p => "Base URL:   " ++ p.text).toList ++
    ["In scope:   " ++ (if c.includes queried then "yes" else "no")] ++
    listLines "Paths:" (c.mappings.map mapping) ++
    listLines "References:" (c.references.map (·.text))
  String.ofList (Text.trimEnd ("\n".intercalate lines).toList)

/-- A configuration as JSON. -/
def configValue (c : Project.Config) (queried : Path) : Value :=
  let mapping (m : Project.Mapping) : Value :=
    .object [("pattern", .string m.pattern),
      ("substitutions", .array (m.substitutions.map fun s => .string s.template))]
  .object [("path", .string c.path.text), ("base_url", .ofOption (c.baseUrl.map (·.text))),
    ("paths", .array (c.mappings.map mapping)),
    ("references", .array (c.references.map fun p => .string p.text)),
    ("includes", .bool (c.includes queried))]

/-- Print the configuration that applies to a path, if there is one. -/
def printConfig (style : Style) (config : Option Project.Config) (queried : Path) : String :=
  match style, config with
  | .text, none => "No tsconfig.json applies"
  | .text, some c => configText c queried
  | _, c => printJson style ((c.map (configValue · queried)).getD .null)

end ScriptModules.CommandLine

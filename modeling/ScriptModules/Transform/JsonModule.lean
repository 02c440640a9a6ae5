import ScriptModules.Json.Reader
import ScriptModules.Text.Blank
import ScriptModules.Transform.Basic

/-!
# JSON documents as modules

The document becomes the default export, and each top-level key that is a usable name becomes a
named export.
-/

namespace ScriptModules.JsonModule

/-- The name that is bound to the document. -/
def binding : String := "__json__"

/-- What stands before the document. -/
def opening : String := "const __json__ = "

/-- Words that cannot name an export. -/
def reserved : List String :=
  ["arguments", "await", "break", "case", "catch", "class", "const", "continue", "debugger",
    "default", "delete", "do", "else", "enum", "eval", "export", "extends", "false", "finally",
    "for", "function", "if", "implements", "import", "in", "instanceof", "interface", "let",
    "new", "null", "package", "private", "protected", "public", "return", "static", "super",
    "switch", "this", "throw", "true", "try", "typeof", "var", "void", "while", "with", "yield"]

/-- A key is exported under its own name if it is an ASCII name, not reserved and not taken. -/
def isExportable (key : String) : Bool :=
  let starts (c : Char) : Bool := c.isAlpha || c == '_' || c == '$'
  key != binding && !reserved.contains key &&
    match key.toList with
    | [] => false
    | c :: r => starts c && r.all fun d => starts d || d.isDigit

/-- A document without the mark at its start. -/
def withoutMark (source : String) : String :=
  match source.toList with
  | c :: r => if c.val.toNat == 0xFEFF then String.ofList r else source
  | [] => source

/-- The named exports of a document. -/
def exportLines (value : Json.Value) : List String :=
  let keys := (value.members?.getD []).map (·.1)
  (keys.filter isExportable).map fun key =>
    "export const " ++ key ++ " = " ++ binding ++ "[\x22" ++ key ++ "\x22];\n"

/-- The map of a module: its first lines are those of the document. -/
def mapOf (path source : String) (body : List Char) : SourceMap :=
  .ofLines path source
    ((List.range (Text.lines body).length).map fun line =>
      if line = 0 then [⟨0, 0, 0, 0, none⟩, ⟨opening.length.toUInt32, 0, 0, 0, none⟩]
      else [⟨0, 0, line.toUInt32, 0, none⟩])

/-- The module of a JSON document. -/
def transform (source : String) (path : Path) : Except TransformFault Transformed :=
  let document := withoutMark source
  match Json.parse document with
  | .error fault =>
    .error (.rejected path ⟨fault.line, fault.column⟩ ("invalid JSON: " ++ fault.text))
  | .ok value =>
    let body := Text.trimEnd document.toList
    let code := opening ++ String.ofList body ++ ";\nexport default " ++ binding ++ ";\n" ++
      String.join (exportLines value)
    .ok ⟨code, mapOf path.text source body⟩

end ScriptModules.JsonModule

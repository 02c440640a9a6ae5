import ScriptModules.Grammar.LineEnd
import ScriptModules.Json.Value
import ScriptModules.Path
import ScriptModules.SourceMap.Basic

/-!
# Transforms

A transform turns the text of a source into the text of a module, along with a map back.
-/

namespace ScriptModules

/-- What a transform makes of a source. -/
structure Transformed where
  code : String
  map : SourceMap
  deriving DecidableEq, Repr

/-- Why a source cannot be transformed, and where. -/
inductive TransformFault where
  | rejected (path : Path) (at_ : Text.Position) (message : String)
  | unsupported (path : Path) (at_ : Text.Position) (construct : String)
  deriving DecidableEq, Repr

namespace TransformFault

/-- The place of a fault. -/
def position : TransformFault → Text.Position
  | rejected _ p _ | unsupported _ p _ => p

/-- The wording of a fault. -/
def text (f : TransformFault) : String :=
  let place (path : Path) (p : Text.Position) : String :=
    path.text ++ ":" ++ toString p.line ++ ":" ++ toString p.column ++ ": "
  match f with
  | rejected path p message => place path p ++ message
  | unsupported path p construct => place path p ++ "unsupported syntax: " ++ construct

end TransformFault

/-- The settings of the project that owns a source, if there is one. -/
structure TransformOptions where
  compilerOptions : Option Json.Members := none
  deriving Repr

namespace TransformOptions

/-- The text of a compiler option. -/
def text? (key : String) (o : TransformOptions) : Option String :=
  (o.compilerOptions.bind (·.get? key)).bind Json.Value.string?

/-- Whether a compiler option is switched on. -/
def isOn (key : String) (o : TransformOptions) : Bool :=
  ((o.compilerOptions.bind (·.get? key)).bind Json.Value.bool?).getD false

end TransformOptions

/-- The dialect of a file, told by its extension. -/
def Grammar.Dialect.ofPath (p : Path) : Dialect :=
  match p.extension? with
  | some "ts" | some "mts" | some "cts" => .typed
  | some "tsx" => .typedMarkup
  | _ => .plain

end ScriptModules

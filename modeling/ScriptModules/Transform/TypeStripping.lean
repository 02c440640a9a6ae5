import ScriptModules.Grammar.Recovery
import ScriptModules.Strip.Elision
import ScriptModules.Transform.Basic

/-!
# Stripping the types of a source

The result keeps every line and column, so its map is the identity.
-/

namespace ScriptModules

/-- Imports that are never used as values are kept when either option asks for it. -/
def TransformOptions.preservesImports (o : TransformOptions) : Bool :=
  o.isOn "verbatimModuleSyntax" || o.isOn "preserveValueImports"

/-- Strip the types of a source. -/
def stripTypes (source : String) (path : Path) (options : TransformOptions) :
    Except TransformFault Transformed :=
  let dialect := Grammar.Dialect.ofPath path
  let cs := source.toList
  match Grammar.parse? dialect source with
  | none =>
    let blame := Grammar.blame dialect source
    .error (.rejected path (Text.positionAt blame.offset cs) blame.message)
  | some tree =>
    match Strip.stripTree options.preservesImports cs tree with
    | .error u => .error (.unsupported path (Text.positionAt u.offset cs) u.construct.text)
    | .ok code => .ok ⟨String.ofList code, .identity path.text source⟩

end ScriptModules

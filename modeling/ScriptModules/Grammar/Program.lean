import ScriptModules.Grammar.Statements

/-!
# Programs

The grammar of each dialect as a whole, and the reading of a text as a program.
-/

namespace ScriptModules.Grammar

open ScriptRule

/-- The rule of each symbol. -/
def rules (d : Dialect) : Symbol → ScriptRule
  | .statement => statement d
  | .declaration => declaration d
  | .block => block
  | .expressions => expressions
  | .expression tail typed => expression d tail typed
  | .operand tail typed => operand d tail typed
  | .arguments => ScriptRule.arguments
  | .template => template
  | .pattern => pattern d
  | .destructuring => destructuring d
  | .parameters => ScriptRule.parameters d
  | .propertyName => propertyName
  | .decorator => decorator d
  | .classBody => classBody d
  | .typed tail => typeExpression tail
  | .typeOperand tail => typeOperand tail
  | .typeArguments => typeArguments
  | .typeParameters => typeParameters
  | .objectType => objectType d
  | .element => element d

/-- A bound on how deep symbols nest inside one another in a text of the given length. -/
def depthBound (length : Nat) : Nat := 16 * length + 64

/-- Read a symbol at a place. -/
def readAt (d : Dialect) (s : Symbol) (c : Cursor) : Outcome :=
  readSymbol d (rules d) (depthBound c.size) s c

/-- A program is a sequence of statements up to the end of the text, perhaps after the line
that names its interpreter. -/
def program : ScriptRule :=
  Rule.all [
    Rule.opt (.token (.lexeme .hashbang false .hashbang)),
    .many statementOrComment,
    .token .finish]

/-- The tree of a program, if the text is one. -/
def parse? (d : Dialect) (source : String) : Option Tree :=
  let c := Cursor.ofText source.toList
  (program.read d (readSymbol d (rules d) (depthBound c.size)) [] c).map
    fun (forest, last) => .node .program ⟨0, last.offset⟩ forest

end ScriptModules.Grammar

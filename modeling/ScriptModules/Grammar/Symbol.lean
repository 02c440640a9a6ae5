import ScriptModules.Grammar.Rule

/-!
# Symbols of the script grammar

The constructs that refer to one another, and the small rules that all of them share: names,
semicolons and the marks after which a line end no longer closes a statement.
-/

namespace ScriptModules.Grammar

/-- What may close the construct that is being read. -/
inductive Tail where
  /-- Only a mark of the construct around it. -/
  | inner
  /-- A line end; a binary operator may follow as well. -/
  | operand
  /-- A line end; no binary operator may follow. -/
  | declared
  deriving DecidableEq, Repr

/-- The constructs that other constructs refer to. `typed` tells whether an arrow function may
annotate its result here; between the marks of a conditional expression it may have to do
without. -/
inductive Symbol where
  | statement
  | declaration
  | block
  | expressions
  | expression (tail : Tail) (typed : Bool)
  | operand (tail : Tail) (typed : Bool)
  | arguments
  | template
  | pattern
  | destructuring
  | parameters
  | propertyName
  | decorator
  | classBody
  | typed (tail : Tail)
  | typeOperand (tail : Tail)
  | typeArguments
  | typeParameters
  | objectType
  | element
  deriving DecidableEq, Repr

/-- The rules of the script grammar. -/
abbrev ScriptRule := Rule Symbol

namespace ScriptRule

open Rule

/-- A line end closes a statement here. -/
def lineEnd (operand signature : Bool) : ScriptRule := .token (.lineEnd ⟨operand, signature⟩)

/-- Nothing more is read where a line end closes what was read. -/
def goesOn : Tail → ScriptRule
  | .inner => .empty
  | .operand => .deny (lineEnd true false)
  | .declared => .deny (lineEnd false false)

/-- A statement ends with a semicolon or with a line end. -/
def semicolon (operand signature : Bool) : ScriptRule :=
  .alt (mark ";") (lineEnd operand signature)

/-- An inserted line end only fixes where a construct stops. -/
def closing : ScriptRule := opt (lineEnd false false)

/-- Any word. -/
def anyWord (kind : Kind) : ScriptRule := name kind []

/-- A name of a binding. -/
def identifier (reserved : List String) : ScriptRule := name .identifier reserved

/-- A private name. -/
def privateName : ScriptRule := .token (.lexeme .privateName true .privateName)

/-- A string literal. -/
def string : ScriptRule := .token (.lexeme .string true .string)

/-- A number literal. -/
def number : ScriptRule := .token (.lexeme .number true .number)

/-- The words that start an expression as keywords, so none of them is a name there. -/
def expressionWords (d : Dialect) : List String :=
  ["this", "super", "true", "false", "null", "undefined", "function", "class", "await", "yield",
    "typeof", "void", "delete", "import", "using"] ++ (if d.hasTypes then [] else ["new"])

/-- The words that start a statement as keywords and are not names. -/
def statementWords (d : Dialect) : List String :=
  ["import", "debugger", "var", "const", "if", "switch", "for", "while", "do", "try", "with",
    "break", "continue", "return", "throw"] ++
  (if d.hasTypes then ["abstract", "interface", "enum"] else [])

/-- The words that start a type as keywords. -/
def typeWords : List String :=
  ["any", "number", "boolean", "string", "symbol", "unique", "void", "unknown", "never", "object",
    "this", "typeof", "keyof", "readonly", "new", "abstract", "infer", "import", "true", "false",
    "null", "undefined", "const"]

/-- The words that name a predefined type on their own. -/
def predefinedTypes : List String :=
  ["any", "number", "boolean", "string", "symbol", "void", "unknown", "never", "object"]

/-- An expression closed by a mark of what is around it. -/
def innerExpression : ScriptRule := .symbol (.expression .inner true)

/-- `= expression`. -/
def initializer (tail : Tail) : ScriptRule :=
  all [mark "=", .symbol (.expression tail true)]

/-- A statement, or a comment of markup in its place. -/
def statementOrComment : ScriptRule :=
  .alt (.token (.lexeme .comment true .markupComment)) (.symbol .statement)

/-- `from "specifier"`. -/
def fromClause : ScriptRule := all [word "from", string]

end ScriptRule

end ScriptModules.Grammar

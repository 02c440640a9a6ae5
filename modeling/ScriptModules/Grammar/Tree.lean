/-!
# Trees of source text

A tree records which construct of the script language stands where. Every node
carries the byte range it covers, leaves are the tokens that were read, and
comments are leaves among the children of the innermost construct around them.
-/

namespace ScriptModules.Grammar

/-- A half-open range of byte offsets in a source text. -/
structure Span where
  /-- Offset of the first byte. -/
  start : Nat
  /-- Offset just past the last byte. -/
  stop : Nat
  deriving DecidableEq, Repr, Inhabited

/-- A range holds the offsets from its start up to, but not including, its stop. -/
def Span.holds (s : Span) (offset : Nat) : Bool := s.start ≤ offset && offset < s.stop

/-- The constructs of the script language and its typed dialect. -/
inductive Kind where
  /-- A punctuation mark or a keyword, spelled as given. -/
  | mark (text : String)
  /-- A line or block comment. -/
  | comment
  /-- The place where the end of a line closes a statement; it has no text. -/
  | lineEnd
  /-- A token that is absent but stands where the grammar requires it. -/
  | missing (text : String)
  /-- Text that the grammar does not accept. -/
  | error
  /-- The whole text. -/
  | program
  | hashbang
  -- names
  | identifier | propertyName | privateName | typeName | labelName
  | shorthand | shorthandPattern
  -- literals
  | number | string | regex | template | templateText | substitution | undefined
  -- expressions
  | parenthesized | sequence | array | object | pair | spread | method | computedName
  | functionExpression | arrow | classExpression | newExpression | metaProperty
  | member | subscript | call | arguments | update | nonNull | unary | await | yield
  | binary | ternary | assignment | augmented | asExpression | satisfiesExpression
  | instantiation | typeAssertion | decorator
  -- patterns and parameters
  | objectPattern | arrayPattern | pairPattern | rest | assignmentPattern
  | parameters | requiredParameter | optionalParameter | accessibility | overriding
  -- types
  | typeAscription | predicateAscription | assertsAscription
  | omittingAscription | addingAscription | optingAscription
  | typeParameters | typeArguments | implementsClause | extendsClause
  | typeExpression | objectType
  -- class and type members
  | classBody | field | staticBlock | methodSignature | abstractMethodSignature
  | indexSignature | propertySignature | callSignature | constructSignature
  -- statements
  | expressionStatement | variableDeclaration | lexicalDeclaration | declarator
  | block | ifStatement | elseClause | switchStatement | switchBody | switchCase
  | forStatement | forInStatement | whileStatement | doStatement | tryStatement
  | catchClause | finallyClause | withStatement | breakStatement | continueStatement
  | debuggerStatement | returnStatement | throwStatement | emptyStatement
  | labeledStatement
  -- declarations
  | functionDeclaration | functionSignature | classDeclaration
  | abstractClassDeclaration | interfaceDeclaration | typeAliasDeclaration
  | enumDeclaration | enumBody | namespaceDeclaration | importAlias
  | ambientDeclaration
  -- modules
  | importStatement | importClause | namespaceImport | namedImports | importSpecifier
  | importRequireClause | importAttribute
  | exportStatement | exportClause | exportSpecifier | namespaceExport
  -- markup
  | element | selfClosingElement | openingTag | closingTag
  | markupText | markupExpression | markupAttribute
  deriving DecidableEq, Repr, Inhabited

/-- A construct and the range it covers. -/
inductive Tree where
  /-- A token with its text. -/
  | leaf (kind : Kind) (span : Span) (text : String)
  /-- A construct made of other constructs, in source order. -/
  | node (kind : Kind) (span : Span) (children : List Tree)
  deriving Repr, Inhabited

namespace Tree

/-- The construct at the root of a tree. -/
def kind : Tree → Kind
  | leaf kind _ _ | node kind _ _ => kind

/-- The range that a tree covers. -/
def span : Tree → Span
  | leaf _ span _ | node _ span _ => span

/-- The constructs directly below the root, comments included. -/
def children : Tree → List Tree
  | leaf _ _ _ => []
  | node _ _ children => children

/-- The text of a token, and nothing for a construct that is made of others. -/
def text : Tree → String
  | leaf _ _ text => text
  | node _ _ _ => ""

/-- Comments may stand between any two tokens. -/
def isComment (t : Tree) : Bool := t.kind == .comment

/-- The first direct child of the given kind. -/
def child? (t : Tree) (kind : Kind) : Option Tree := t.children.find? (·.kind == kind)

/-- Whether some direct child has the given kind. -/
def hasChild (t : Tree) (kind : Kind) : Bool := t.children.any (·.kind == kind)

mutual

/-- The root of a tree and everything below it, each construct before its parts. -/
def preorder : Tree → List Tree
  | t@(leaf _ _ _) => [t]
  | t@(node _ _ children) => t :: preorderAll children

/-- The preorder listings of several trees, one after the other. -/
def preorderAll : List Tree → List Tree
  | [] => []
  | t :: ts => preorder t ++ preorderAll ts

end

end Tree

/-- Neighbouring trees in source order. -/
abbrev Forest := List Tree

/-- The range of a construct: from its first tree to its last, and empty at `offset`
when it holds nothing. -/
def Forest.span (offset : Nat) : Forest → Span
  | [] => ⟨offset, offset⟩
  | t :: ts => ⟨t.span.start, ((t :: ts).getLast?.getD t).span.stop⟩

/-- Gather a forest under one node. Comments at the front stay outside, because they stand
before the construct; a line end fixes where the construct stops and is then dropped. -/
def Forest.gather (kind : Kind) (offset : Nat) (forest : Forest) : Forest :=
  let body := forest.dropWhile Tree.isComment
  forest.takeWhile Tree.isComment ++
    [.node kind (Forest.span offset body) (body.filter (·.kind != .lineEnd))]

end ScriptModules.Grammar

import ScriptModules.Grammar.Classes
import ScriptModules.Grammar.Markup

/-!
# Statements and declarations

The statements of both languages, the declarations that only the typed language has, and the
statements by which modules import and export.
-/

namespace ScriptModules.Grammar.ScriptRule

open Rule

/-- Expressions with commas between them that a line end may close. -/
private def openExpressions : ScriptRule :=
  .group (all [.symbol (.expression .operand true), opt (.absorb .sequence (all [goesOn .operand,
    mark ",", commaList (.symbol (.expression .operand true))]))])

/-- A condition or value in parentheses. -/
private def parenthesized (d : Dialect) : ScriptRule :=
  .node .parenthesized (all [mark "(", .symbol .expressions,
    (if d.hasTypes then opt (typeAscription .inner) else .empty), mark ")"])

/-- Statements in braces. -/
def block : ScriptRule :=
  .node .block (all [mark "\x7b", .many statementOrComment, mark "\x7d", closing])

/-- A name or pattern with the value bound to it. -/
private def declarator (d : Dialect) (reserved : List String) : ScriptRule :=
  let bound : ScriptRule := .alt (identifier reserved) (.symbol .destructuring)
  .node .declarator (
    if d.hasTypes then
      .alt
        (all [identifier reserved, goesOn .declared, mark "!", typeAscription .declared])
        (all [bound, opt (typeAscription .declared), opt (initializer .operand)])
    else all [bound, opt (initializer .operand)])

/-- `let` and `const` with what they bind, up to the end of the declaration. -/
private def bindings (d : Dialect) (kind : Kind) (start : ScriptRule) (reserved : List String) :
    ScriptRule :=
  let item := declarator d reserved
  .node kind (all [start, commaList item,
    .alt (mark ";") (.alt (lineEnd true false) (lineEnd false false))])

/-- The words that continue an expression when `let` is a name. -/
private def afterLet (d : Dialect) : List String :=
  ["in", "instanceof"] ++ (if d.hasTypes then ["as", "satisfies"] else [])

/-- `var`, `let` and `const` declarations. -/
private def variableDeclarations (d : Dialect) : List ScriptRule :=
  [ bindings d .variableDeclaration (word "var") [],
    bindings d .lexicalDeclaration (all [word "let", goesOn .operand]) (afterLet d),
    bindings d .lexicalDeclaration (word "const") (if d.hasTypes then ["enum"] else []) ]

/-- A named function with a body, or in the typed language only its signature. -/
private def function (d : Dialect) : ScriptRule :=
  let head : ScriptRule := all [opt (all [word "async", goesOn .operand]), word "function",
    opt (mark "*"), anyWord .identifier, callSignature d .declared]
  let full : ScriptRule := .absorb .functionDeclaration (all [.symbol .block, closing])
  if d.hasTypes then
    .group (all [head, .alt full (.absorb .functionSignature (semicolon false true))])
  else .group (all [head, full])

/-- A named class. -/
private def classDeclaration (d : Dialect) : ScriptRule :=
  .node .classDeclaration (all [
    .many (.symbol .decorator), word "class", classRest d (className d), closing])

/-- A class that is only to be extended. -/
private def abstractClass (d : Dialect) : ScriptRule :=
  .node .abstractClassDeclaration (all [
    .many (.symbol .decorator), word "abstract", word "class", classRest d (className d)])

/-- `interface name extends type, … \x7b…\x7d`. -/
private def interface : ScriptRule :=
  .node .interfaceDeclaration (all [
    word "interface", anyWord .typeName, opt (.symbol .typeParameters),
    opt (all [word "extends", commaList typeReference]), .symbol .objectType])

/-- `type name = type`. -/
private def typeAlias : ScriptRule :=
  .node .typeAliasDeclaration (all [
    word "type", goesOn .operand, anyWord .typeName, opt (.symbol .typeParameters), mark "=",
    .symbol (.typed .declared), semicolon false false])

/-- `enum name \x7bname = value, …\x7d`. -/
private def enumeration : ScriptRule :=
  let item : ScriptRule := all [.symbol .propertyName, opt (initializer .inner)]
  .node .enumDeclaration (all [
    opt (word "const"), word "enum", anyWord .identifier,
    .node .enumBody (all [mark "\x7b", opt (all [commaList item, opt (mark ",")]), mark "\x7d"])])

/-- `namespace name \x7b…\x7d` and `module name \x7b…\x7d`. -/
private def namespaceDeclaration : ScriptRule :=
  .node .namespaceDeclaration (all [
    .alt (word "namespace") (word "module"), goesOn .operand, namespaceBody])

/-- `import name = name.name`. -/
private def importAlias : ScriptRule :=
  .node .importAlias (all [
    word "import", anyWord .identifier, mark "=", anyWord .identifier,
    .many (all [mark ".", anyWord .propertyName]), semicolon false false])

/-- `declare` with what is declared elsewhere. -/
private def ambient : ScriptRule :=
  .node .ambientDeclaration (all [
    word "declare", goesOn .operand,
    any [
      .symbol .declaration,
      all [word "global", .symbol .block],
      all [word "module", mark ".", anyWord .propertyName, mark ":", .symbol (.typed .declared),
        semicolon false false]]])

/-- The declarations. -/
def declaration (d : Dialect) : ScriptRule :=
  any (
    (if d.hasTypes then
      [enumeration, interface, typeAlias, abstractClass d, namespaceDeclaration, importAlias,
        ambient]
    else []) ++
    variableDeclarations d ++ [function d, classDeclaration d])

/-- A name that is imported or exported under. -/
private def moduleName : ScriptRule := .alt (anyWord .identifier) string

/-- One item of an import list. -/
private def importSpecifier (d : Dialect) : ScriptRule :=
  let bound : ScriptRule := anyWord .identifier
  let renamed : ScriptRule := all [moduleName, word "as", bound]
  let ending : ScriptRule := .peek (.alt (mark ",") (mark "\x7d"))
  let typeWord : List String := if d.hasTypes then ["type", "typeof"] else []
  .node .importSpecifier (any ([
    all [.alt (identifier typeWord) string, word "as", bound],
    all [identifier typeWord, ending]] ++
    (if d.hasTypes then [
      all [.token (.keyword .identifier "type"), word "as", bound, ending],
      all [.token (.keyword .identifier "type"), ending],
      all [.alt (word "type") (word "typeof"), renamed],
      all [.alt (word "type") (word "typeof"), identifier ["as"], ending]]
    else [])))

/-- The bindings of an import. -/
private def importClause (d : Dialect) : ScriptRule :=
  let namespaceImport : ScriptRule :=
    .node .namespaceImport (all [mark "*", word "as", anyWord .identifier])
  let named : ScriptRule :=
    .node .namedImports (all [mark "\x7b",
      opt (all [commaList (importSpecifier d), opt (mark ",")]), mark "\x7d"])
  .node .importClause (any [
    namespaceImport, named,
    all [anyWord .identifier, opt (all [mark ",", .alt namespaceImport named])]])

/-- Attributes that tell how to load what is imported. -/
private def importAttribute (d : Dialect) : ScriptRule :=
  .node .importAttribute (all [.alt (word "with") (word "assert"), object d])

/-- An import statement. -/
private def importStatement (d : Dialect) : ScriptRule :=
  let plain : ScriptRule := any [all [importClause d, fromClause], string]
  let required : ScriptRule :=
    .node .importRequireClause (all [anyWord .identifier, mark "=", word "require", mark "(",
      string, mark ")"])
  let what : ScriptRule :=
    if d.hasTypes then
      any [
        all [.alt (word "type") (word "typeof"), .alt required plain],
        required, plain]
    else plain
  .node .importStatement (all [word "import", what, opt (importAttribute d),
    semicolon false false])

/-- `\x7bname as name, …\x7d`. -/
private def exportClause (d : Dialect) : ScriptRule :=
  let item : ScriptRule := .node .exportSpecifier (
    if d.hasTypes then
      .alt
        (all [.alt (word "type") (word "typeof"), moduleName, opt (all [word "as", moduleName])])
        (all [.alt (identifier ["type", "typeof"]) string, opt (all [word "as", moduleName])])
    else all [moduleName, opt (all [word "as", moduleName])])
  .node .exportClause (all [mark "\x7b", opt (all [commaList item, opt (mark ",")]), mark "\x7d"])

/-- An export statement. -/
private def exportStatement (d : Dialect) : ScriptRule :=
  let start : ScriptRule := all [word "export", goesOn .operand]
  let value : ScriptRule := all [.symbol (.expression .operand true), semicolon true false]
  let typedForms : List ScriptRule := [
    all [start, word "type", exportClause d, opt fromClause, semicolon false false],
    all [start, mark "=", value],
    all [start, word "as", word "namespace", anyWord .identifier, semicolon false false]]
  .node .exportStatement (any (
    (if d.hasTypes then typedForms else []) ++ [
      all [start, mark "*", fromClause, semicolon false false],
      all [start, .node .namespaceExport (all [mark "*", word "as", moduleName]), fromClause,
        semicolon false false],
      all [start, exportClause d, opt fromClause, semicolon false false],
      all [.many (.symbol .decorator), start, word "default",
        .alt (.symbol .declaration) value],
      all [.many (.symbol .decorator), start, .symbol .declaration]]))

/-- The header of a loop over the members of a value. -/
private def loopHeader : ScriptRule :=
  let bound : ScriptRule := .alt (anyWord .identifier) (.symbol .destructuring)
  let assigned : ScriptRule := .alt (.symbol .destructuring)
    (.group (all [.symbol (.operand .inner true),
      .check isAssignable]))
  all [mark "(",
    any [
      all [word "var", bound, opt (initializer .inner), .peek (.alt (word "in") (word "of"))],
      all [.alt (word "let") (word "const"), bound, .peek (.alt (word "in") (word "of"))],
      all [assigned, .peek (.alt (word "in") (word "of"))]],
    .alt (word "in") (word "of"), .symbol .expressions, mark ")"]

/-- Loops. -/
private def loops (d : Dialect) : List ScriptRule :=
  let nothing : ScriptRule := .node .emptyStatement (mark ";")
  [ .node .forInStatement (all [word "for", opt (word "await"), loopHeader, .symbol .statement]),
    .node .forStatement (all [word "for", mark "(",
      any (variableDeclarations d ++ [all [.symbol .expressions, mark ";"], nothing]),
      .alt (all [.symbol .expressions, mark ";"]) nothing,
      opt (.symbol .expressions), mark ")", .symbol .statement]),
    .node .whileStatement (all [word "while", parenthesized d, .symbol .statement]),
    .node .doStatement (all [word "do", .symbol .statement, word "while", parenthesized d,
      opt (semicolon true false)]) ]

/-- Choices between statements. -/
private def choices (d : Dialect) : List ScriptRule :=
  let body : ScriptRule := .many (all [
    .deny (.alt (word "case") (word "default")), .symbol .statement])
  let case : ScriptRule := .node .switchCase (.alt
    (all [word "case", .symbol .expressions, mark ":", body])
    (all [word "default", mark ":", body]))
  [ .node .ifStatement (all [word "if", parenthesized d, .symbol .statement,
      opt (.node .elseClause (all [word "else", .symbol .statement]))]),
    .node .switchStatement (all [word "switch", parenthesized d,
      .node .switchBody (all [mark "\x7b", .many case, mark "\x7d"])]) ]

/-- `try` with its handlers. -/
private def tryStatement (d : Dialect) : ScriptRule :=
  let parameter : ScriptRule := all [mark "(",
    .alt (anyWord .identifier) (.symbol .destructuring),
    (if d.hasTypes then opt (typeAscription .inner) else .empty), mark ")"]
  .node .tryStatement (all [word "try", .symbol .block,
    opt (.node .catchClause (all [word "catch", opt parameter, .symbol .block])),
    opt (.node .finallyClause (all [word "finally", .symbol .block]))])

/-- Statements that leave what is around them. -/
private def jumps : List ScriptRule :=
  let label : ScriptRule := opt (all [goesOn .declared, anyWord .labelName])
  [ .node .breakStatement (all [word "break", label, semicolon false false]),
    .node .continueStatement (all [word "continue", label, semicolon false false]),
    .node .debuggerStatement (all [word "debugger", semicolon false false]),
    .node .returnStatement (all [word "return", .alt
      (all [goesOn .declared, openExpressions, semicolon true false]) (semicolon false false)]),
    .node .throwStatement (all [word "throw", openExpressions, semicolon true false]) ]

/-- An expression that stands as a statement. -/
private def expressionStatement (d : Dialect) : ScriptRule :=
  all [
    .deny (any [
      oneWord ((statementWords d).filter (· != "import")),
      all [word "import", .deny (any [mark "(", mark ".", mark "<"])],
      all [word "function", opt (mark "*"), anyWord .identifier],
      all [word "class", .deny (oneWord ["extends", "implements"]), anyWord .identifier]]),
    .node .expressionStatement (all [openExpressions, semicolon true false])]

/-- A statement. -/
def statement (d : Dialect) : ScriptRule :=
  any ([
    exportStatement d, importStatement d, .symbol .declaration,
    .node .labeledStatement (all [anyWord .labelName, mark ":", .symbol .statement]),
    .symbol .block] ++
    choices d ++ loops d ++ [
      tryStatement d,
      .node .withStatement (all [word "with", parenthesized d, .symbol .statement])] ++
    jumps ++ [
      .node .emptyStatement (mark ";"),
      expressionStatement d])

end ScriptModules.Grammar.ScriptRule

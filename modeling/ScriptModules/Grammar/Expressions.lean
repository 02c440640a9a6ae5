import ScriptModules.Grammar.Patterns

/-!
# Expressions

An expression is a chain of operands joined by operators, without regard to how tightly the
operators bind: nothing that is done with a tree depends on it. An operand is a prefixed or
suffixed primary expression and may be assigned to, in which case it takes the rest of the chain.
-/

namespace ScriptModules.Grammar.ScriptRule

open Rule

/-- `(expression, ...expressions)`, any of which may be left out. -/
def arguments : ScriptRule :=
  let item : ScriptRule := .alt (.node .spread (all [mark "...", innerExpression])) innerExpression
  .node .arguments (all [mark "(", holedList item, mark ")"])

/-- A template and its substitutions. -/
def template : ScriptRule :=
  .node .template (all [mark "\x60", .many (any [
      .token (.lexeme .templateText false .templateText),
      .token (.lexeme .templateText false .escape),
      .node .substitution (all [.token (.tight "$\x7b"), .symbol .expressions, mark "\x7d"])]),
    .token (.tight "\x60")])

/-- An expression or several with commas between them; in parentheses. -/
def expressions : ScriptRule :=
  .group (all [innerExpression,
    opt (.absorb .sequence (all [mark ",", commaList innerExpression]))])

/-- An array literal, in which values may be left out. -/
private def array : ScriptRule :=
  let item : ScriptRule := .alt (.node .spread (all [mark "...", innerExpression])) innerExpression
  .node .array (all [mark "[", holedList item, mark "]"])

/-- A method of an object literal. -/
private def objectMethod (d : Dialect) : ScriptRule :=
  .node .method (all [
    .many (.symbol .decorator), methodModifiers d, .symbol .propertyName,
    onlyOpt d, callSignature d .inner, .symbol .block])
where
  /-- The mark of an optional method. -/
  onlyOpt (d : Dialect) : ScriptRule := if d.hasTypes then opt (mark "?") else .empty

/-- An object literal, in which members may be left out. -/
def object (d : Dialect) : ScriptRule :=
  let item : ScriptRule := any [
    .node .spread (all [mark "...", innerExpression]),
    .node .pair (all [.symbol .propertyName, mark ":", innerExpression]),
    objectMethod d,
    anyWord .shorthand]
  .node .object (all [mark "\x7b", holedList item, mark "\x7d"])

/-- A function that is an expression. -/
private def functionExpression (d : Dialect) : ScriptRule :=
  .node .functionExpression (all [
    opt (word "async"), word "function", opt (mark "*"), opt (anyWord .identifier),
    callSignature d .inner, .symbol .block])

/-- An arrow function. With `typed` unset it may not say anything about its result. -/
private def arrow (d : Dialect) (tail : Tail) (typed : Bool) : ScriptRule :=
  let signature : ScriptRule :=
    if typed then callSignature d .inner
    else all [opt (.symbol .typeParameters), .symbol .parameters]
  let body : ScriptRule := .alt (.symbol .block) (.symbol (.expression tail typed))
  let rest (start : ScriptRule) : ScriptRule := .node .arrow (all [start, mark "=>", body])
  any [
    rest (identifier (expressionWords d)),
    rest signature,
    rest (all [word "async", goesOn tail, .alt (anyWord .identifier) signature])]

/-- What a function or class extends and implements. -/
def heritage (d : Dialect) : ScriptRule :=
  if d.hasTypes then
    let closed : ScriptRule :=
      .peek (any [mark "\x7b", mark ",", word "implements"])
    let value : ScriptRule := .alt
      (all [.symbol (.operand .inner true), opt (.symbol .typeArguments), closed])
      (all [innerExpression, opt (.symbol .typeArguments), closed])
    let extended : ScriptRule := .node .extendsClause (all [word "extends", commaList value])
    let implemented : ScriptRule :=
      .node .implementsClause (all [word "implements", commaList innerType])
    opt (.alt (all [extended, opt implemented]) implemented)
  else
    opt (.node .extendsClause (all [word "extends", innerExpression]))

/-- The name, parameters, heritage and body of a class. -/
def classRest (d : Dialect) (named : ScriptRule) : ScriptRule :=
  all [named, (if d.hasTypes then opt (.symbol .typeParameters) else .empty), heritage d,
    .symbol .classBody]

/-- The name of a class cannot be a word that starts its heritage. -/
def className (d : Dialect) : ScriptRule :=
  if d.hasTypes then name .typeName ["extends", "implements"] else identifier ["extends"]

/-- A class that is an expression. -/
private def classExpression (d : Dialect) : ScriptRule :=
  .node .classExpression (all [
    .many (.symbol .decorator), word "class", classRest d (opt (className d))])

/-- Members, subscripts and templates after what `new` constructs. -/
private def constructed (d : Dialect) (primary : ScriptRule) : ScriptRule :=
  .group (all [primary, .many (any [
    .absorb .member (all [.alt (mark ".") (sharp "?." []),
      .alt privateName (anyWord .propertyName)]),
    .absorb .subscript (all [mark "[", .symbol .expressions, mark "]"]),
    .absorb .call (.symbol .template),
    onlyIf d.hasTypes (.absorb .nonNull (sharp "!" ["!=", "!=="]))])])

/-- `import` as it is called to load a module. -/
private def importCall (d : Dialect) : ScriptRule :=
  .node .call (all [word "import",
    (if d.hasTypes then opt (.symbol .typeArguments) else .empty), .symbol .arguments])

/-- `import.meta` and `new.target`. -/
private def metaProperty : ScriptRule :=
  .node .metaProperty (.alt
    (all [word "import", mark ".", word "meta"])
    (all [word "new", mark ".", word "target"]))

/-- `namespace name \x7b…\x7d`, which is read as an expression as well. -/
def namespaceBody : ScriptRule :=
  all [
    .alt string (.group (all [anyWord .identifier,
      .many (.absorb .member (all [mark ".", anyWord .propertyName]))])),
    opt (.symbol .block)]

/-- The expressions that stand alone, but for the use of `new`. -/
private def simplePrimary (d : Dialect) : ScriptRule :=
  any [
    .node .parenthesized (all [mark "(", .symbol .expressions,
      (if d.hasTypes then opt (typeAscription .inner) else .empty), mark ")"]),
    .group (all [.symbol .destructuring, .peek (sharp "=" ["==", "=>"])]),
    array,
    object d,
    functionExpression d,
    classExpression d,
    .symbol .template,
    string,
    number,
    .token (.lexeme .regex true .regex),
    metaProperty,
    importCall d,
    oneWord ["this", "super", "true", "false", "null"],
    .token (.keyword .undefined "undefined"),
    onlyIf d.hasTypes (.node .namespaceDeclaration (all [word "namespace", goesOn .operand,
      namespaceBody])),
    onlyIf d.hasMarkup (.symbol .element)]

/-- A name where an expression starts. -/
private def expressionName (d : Dialect) : ScriptRule := identifier (expressionWords d)

/-- `new` with what it constructs and the arguments, if any. -/
private def newExpression (d : Dialect) (tail : Tail) : ScriptRule :=
  let inner := .alt (simplePrimary d) (expressionName d)
  .node .newExpression (all [
    .many (word "new"), constructed d inner,
    (if d.hasTypes then opt (all [goesOn tail, .symbol .typeArguments]) else .empty),
    opt (all [goesOn tail, .symbol .arguments])])

/-- The expressions without prefixes and suffixes. -/
private def primary (d : Dialect) (tail : Tail) (typed : Bool) : ScriptRule :=
  any [
    arrow d tail typed,
    simplePrimary d,
    all [.peek (all [word "new", .deny (mark ".")]), newExpression d tail],
    expressionName d]

/-- Something that an operator other than a comparison would take as its right side. -/
private def operandAhead : ScriptRule :=
  .peek (any [
    identifier ["as", "satisfies", "in", "instanceof", "of", "implements", "extends"],
    number, string, mark "\x7b", mark "[", mark "(", mark "+", mark "-", mark "~", mark "\x60",
    mark "@", mark "#", sharp "!" ["!="], .token (.lexeme .regex true .regex)])

/-- The suffixes of an operand: members, subscripts, calls and marks. -/
private def suffix (d : Dialect) (tail : Tail) : ScriptRule :=
  let member : ScriptRule := .alt privateName (anyWord .propertyName)
  let subscript : ScriptRule := all [mark "[", .symbol .expressions, mark "]"]
  let typeArgs : ScriptRule := all [.peek (sharp "<" ["<<", "<="]), .symbol .typeArguments]
  all [goesOn tail, any [
    .absorb .member (all [sharp "." ["..."], member]),
    .absorb .call (.symbol .arguments),
    .absorb .subscript subscript,
    .absorb .call (.symbol .template),
    .absorb .update (.alt (mark "++") (mark "--")),
    .absorb .call (all [mark "?.",
      (if d.hasTypes then opt (.symbol .typeArguments) else .empty), .symbol .arguments]),
    .absorb .subscript (all [mark "?.", subscript]),
    .absorb .member (all [mark "?.", member]),
    onlyIf d.hasTypes (.absorb .nonNull (sharp "!" ["!=", "!=="])),
    onlyIf d.hasTypes (.absorb .call (all [typeArgs,
      .alt (.symbol .arguments) (.symbol .template)])),
    onlyIf d.hasTypes (.absorb .instantiation (all [typeArgs,
      .alt (.peek (all [.deny (goesOn tail)])) (.deny operandAhead)]))]]

/-- Whether a tree may stand on the left of an assignment. -/
def isAssignable (t : Tree) : Bool :=
  match t.kind with
  | .identifier | .undefined | .member | .subscript | .parenthesized | .nonNull
  | .objectPattern | .arrayPattern => true
  | _ => false

/-- Whether a tree may stand on the left of an assignment that reads it first. -/
def isUpdatable (t : Tree) : Bool :=
  match t.kind with
  | .identifier | .member | .subscript | .parenthesized | .nonNull => true
  | _ => false

/-- The assignments that read their left side. -/
private def updatingMarks : List String :=
  [">>>=", "**=", "<<=", ">>=", "&&=", "||=", "??=", "+=", "-=", "*=", "/=", "%=", "^=", "&=",
    "|="]

/-- `= expression` and the assignments that also read their left side. -/
private def assignment (tail : Tail) (typed : Bool) : ScriptRule :=
  let value : ScriptRule := .symbol (.expression tail typed)
  let equals : ScriptRule := sharp "=" ["==", "=>"]
  any [
    .absorb .assignment (all [.peek equals, .check isAssignable, equals, value]),
    .absorb .augmented (all [.check isUpdatable, any (updatingMarks.map mark), value])]

/-- An operand: a primary expression with its prefixes and suffixes, and what is assigned to it. -/
def operand (d : Dialect) (tail : Tail) (typed : Bool) : ScriptRule :=
  let next : ScriptRule := .symbol (.operand tail typed)
  any [
    .node .unary (all [any [mark "++", mark "--", mark "!", mark "~", mark "-", mark "+",
      word "typeof", word "void", word "delete"], next]),
    .node .await (all [word "await", next]),
    .node .yield (all [word "yield", opt (all [goesOn tail, opt (mark "*"),
      .symbol (.expression tail typed)])]),
    .node .assignment (all [word "using", target d, mark "=", .symbol (.expression tail typed)]),
    .group (all [primary d tail typed, .many (suffix d tail),
      opt (all [goesOn tail, assignment tail typed])]),
    onlyIf (d == .typed) (.node .typeAssertion (all [.symbol .typeArguments, next]))]

/-- The operators between two operands, each with the longer marks that it is not. -/
private def joiningMark : ScriptRule :=
  any [
    sharp "&&" ["&&="], sharp "||" ["||="], sharp "??" ["??="],
    sharp ">>>" [">>>="], sharp ">>" [">>>", ">>="], sharp "<<" ["<<="],
    sharp "===" [], sharp "!==" [], sharp "==" ["==="], sharp "!=" ["!=="],
    sharp "<=" [], sharp ">=" [], sharp "<" ["<<", "<="], sharp ">" [">>", ">="],
    sharp "&" ["&&", "&="], sharp "^" ["^="], sharp "|" ["||", "|="],
    sharp "+" ["++", "+="], sharp "-" ["--", "-="], sharp "**" ["**="],
    sharp "*" ["**", "*="], sharp "/" ["/="], sharp "%" ["%="],
    word "instanceof", word "in"]

/-- A chain of operands. -/
def expression (d : Dialect) (tail : Tail) (typed : Bool) : ScriptRule :=
  let asserted : Tail := if tail = .declared then .operand else tail
  let conditional : ScriptRule :=
    let marked : ScriptRule := .token (.lexeme (.mark "?") true .conditionalMark)
    let rest (inner : Bool) : ScriptRule :=
      all [.symbol (.expression .inner inner), mark ":", .symbol (.expression tail typed)]
    .absorb .ternary (all [marked,
      if d.hasTypes then .alt (rest true) (rest false) else rest true])
  .group (all [
    .alt (all [privateName, .peek (word "in")]) (.symbol (.operand tail typed)),
    .many (all [goesOn tail, any [
      .absorb .binary (all [joiningMark, .symbol (.operand tail typed)]),
      onlyIf d.hasTypes (.absorb .asExpression (all [word "as",
        .alt (all [word "const"]) (.symbol (.typed asserted))])),
      onlyIf d.hasTypes (.absorb .satisfiesExpression (all [word "satisfies",
        .symbol (.typed asserted)])),
      conditional]])])

/-- `@name`, `@name.name(…)` or `@(…)`. -/
def decorator (d : Dialect) : ScriptRule :=
  let called : ScriptRule := .group (all [
    anyWord .identifier, .many (.absorb .member (all [mark ".", anyWord .propertyName])),
    opt (.absorb .call (all [
      (if d.hasTypes then opt (.symbol .typeArguments) else .empty), .symbol .arguments]))])
  .node .decorator (all [mark "@",
    .alt called (onlyIf d.hasTypes (.node .parenthesized (all [mark "(", called, mark ")"])))])

end ScriptModules.Grammar.ScriptRule

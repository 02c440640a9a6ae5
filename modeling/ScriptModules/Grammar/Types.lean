import ScriptModules.Grammar.Symbol

/-!
# Type expressions

Types have no meaning at run time, so they are read only to know where they end. What is kept
apart are the calls that load a module, because those may stand in types too.
-/

namespace ScriptModules.Grammar.ScriptRule

open Rule

/-- A type closed by a mark of what is around it. -/
def innerType : ScriptRule := .symbol (.typed .inner)

/-- `: type`. -/
def typeAscription (tail : Tail) : ScriptRule :=
  .node .typeAscription (all [mark ":", .symbol (.typed tail)])

/-- `name is type`, also of `this`. -/
def typePredicate (tail : Tail) : ScriptRule :=
  all [anyWord .identifier, word "is", .symbol (.typed tail)]

/-- `asserts name`, with or without a predicate. -/
def assertion (tail : Tail) : ScriptRule :=
  all [word "asserts", .alt (typePredicate tail) (anyWord .identifier)]

/-- What a function says about its result. -/
def resultAscription (tail : Tail) : ScriptRule :=
  any [
    .node .assertsAscription (all [mark ":", assertion tail]),
    .node .predicateAscription (all [mark ":", typePredicate tail]),
    typeAscription tail]

/-- `<type, …>`. -/
def typeArguments : ScriptRule :=
  .node .typeArguments
    (all [mark "<", commaList innerType, opt (mark ","), mark ">"])

/-- `<name extends type = type, …>`. -/
def typeParameters : ScriptRule :=
  let parameter : ScriptRule := all [
    opt (all [word "const", .peek (anyWord .typeName)]),
    name .typeName ["const"],
    opt (all [.alt (word "extends") (mark ":"), innerType]),
    opt (all [mark "=", innerType])]
  .node .typeParameters
    (all [mark "<", commaList parameter, opt (mark ","), mark ">"])

/-- Type parameters, parameters and what is said about the result. -/
def callSignature (d : Dialect) (tail : Tail) : ScriptRule :=
  if d.hasTypes then
    all [opt (.symbol .typeParameters), .symbol .parameters, opt (resultAscription tail)]
  else .symbol .parameters

/-- A modifier word counts only where a name follows it, since it may be a name itself. -/
def modifier (rule : ScriptRule) (more : List String) : ScriptRule :=
  all [rule, goesOn .declared,
    .peek (any ([anyWord .identifier, privateName, string, number, mark "["] ++ more.map mark))]

/-- `public`, `private` or `protected`. -/
def accessibility : ScriptRule :=
  .node .accessibility (oneWord ["public", "private", "protected"])

/-- `override`. -/
def overriding : ScriptRule := .node .overriding (word "override")

/-- The words before the name of a method, in their fixed order. -/
def methodModifiers (d : Dialect) : ScriptRule :=
  all ((if d.hasTypes then
      [opt (modifier accessibility ["*"]), opt (modifier (word "static") ["*"]),
        opt (modifier overriding ["*"]), opt (modifier (word "readonly") ["*"])]
    else [opt (modifier (word "static") ["*"])]) ++
    [opt (modifier (word "async") ["*"]),
      opt (any [modifier (word "get") [], modifier (word "set") [], mark "*"])])

/-- `[name: type]: type` and its form over the members of a type. -/
def indexSignature (tail : Tail) : ScriptRule :=
  let mapped : ScriptRule := all [anyWord .typeName, word "in", innerType,
    opt (all [word "as", innerType])]
  .node .indexSignature (all [
    opt (all [opt (.alt (mark "-") (mark "+")), word "readonly", .peek (mark "[")]),
    mark "[",
    .alt mapped (all [anyWord .identifier, mark ":", innerType]),
    mark "]",
    any [
      typeAscription tail,
      .node .omittingAscription (all [mark "-?:", .symbol (.typed tail)]),
      .node .addingAscription (all [mark "+?:", .symbol (.typed tail)]),
      .node .optingAscription (all [mark "?:", .symbol (.typed tail)])]])

/-- The members of an object type. -/
def typeMember (d : Dialect) : ScriptRule :=
  any [
    .node .constructSignature (all [opt (word "abstract"), word "new",
      opt (.symbol .typeParameters), .symbol .parameters, opt (typeAscription .declared)]),
    indexSignature .declared,
    .node .methodSignature (all [methodModifiers d, .symbol .propertyName, opt (mark "?"),
      callSignature d .declared]),
    .node .callSignature (callSignature d .declared),
    all [.peek (all [word "export", .deny (any [mark ":", mark "?", mark "(", mark "<"])]),
      .symbol .statement],
    .node .propertySignature (all [
      opt (modifier accessibility []), opt (modifier (word "static") []),
      opt (modifier overriding []), opt (modifier (word "readonly") []),
      .deny (all [word "abstract"]),
      .symbol .propertyName, opt (mark "?"), opt (typeAscription .declared)])]

/-- The braces and members of an object type. -/
def objectType (d : Dialect) : ScriptRule :=
  let close : ScriptRule := mark "\x7d"
  .node .objectType (all [
    mark "\x7b",
    opt (.alt (mark ",") (mark ";")),
    .many (all [typeMember d, any [mark ",", semicolon false false, .peek close]]),
    close])

/-- `name` or `name.name`. -/
private def dottedName (first : ScriptRule) : ScriptRule :=
  all [first, .many (all [mark ".", anyWord .typeName])]

/-- A named type with its arguments. -/
def typeReference : ScriptRule :=
  all [dottedName (name .typeName typeWords), opt (.symbol .typeArguments)]

/-- `typeof` a value: a name with members, constant subscripts, calls and type arguments. -/
def typeQuery : ScriptRule :=
  let index : ScriptRule := any [oneWord predefinedTypes, string, number]
  let start : ScriptRule := any [
    .node .call (all [word "import", .symbol .arguments]),
    name .identifier ["import"]]
  all [word "typeof", .group (all [start, .many (any [
    all [.alt (mark ".") (mark "?."), .alt privateName (anyWord .propertyName)],
    all [opt (mark "?."), mark "[", index, mark "]"],
    .absorb .call (.symbol .arguments)])]), opt (.symbol .typeArguments)]

/-- The type that a loaded module or one of its members describes. -/
def moduleType : ScriptRule :=
  .group (all [word "import", .many (any [
    .absorb .member (all [mark ".", .alt privateName (anyWord .propertyName)]),
    .absorb .call (.symbol .arguments)])])

/-- `[type, name?: type, ...type]`. -/
def tupleType : ScriptRule :=
  let member : ScriptRule := any [
    all [anyWord .identifier, opt (mark "?"), typeAscription .inner],
    all [mark "...", anyWord .identifier, typeAscription .inner],
    all [mark "...", innerType],
    all [innerType, opt (mark "?")]]
  all [mark "[", opt (commaList member), opt (mark ","), mark "]"]

/-- A template of types. -/
def templateType : ScriptRule :=
  all [mark "\x60", .many (any [
      .token (.lexeme .templateText false .templateText),
      all [.token (.tight "$\x7b"), .symbol (.typeOperand .inner), .many (all [
        .alt (sharp "|" ["||"]) (sharp "&" ["&&"]), .symbol (.typeOperand .inner)]),
        mark "\x7d"]]),
    .token (.tight "\x60")]

/-- The types that take subscripts. -/
def typePrimary : ScriptRule :=
  any [
    all [mark "(", innerType, mark ")"],
    .symbol .objectType,
    tupleType,
    templateType,
    typeQuery,
    all [word "unique", word "symbol"],
    oneWord (predefinedTypes ++ ["this", "true", "false", "null", "undefined", "const"]),
    all [opt (.alt (mark "-") (mark "+")), number],
    string,
    sharp "*" [],
    typeReference]

/-- A type without the operators that join types. -/
def typeOperand (tail : Tail) : ScriptRule :=
  let result : ScriptRule :=
    any [assertion tail, typePredicate tail, .symbol (.typed tail)]
  any [
    all [opt (.symbol .typeParameters), .symbol .parameters, mark "=>", result],
    all [opt (word "abstract"), word "new", opt (.symbol .typeParameters), .symbol .parameters,
      mark "=>", .symbol (.typed tail)],
    all [word "readonly", .symbol (.typeOperand tail)],
    all [word "keyof", .symbol (.typeOperand tail)],
    all [word "infer", anyWord .typeName,
      opt (all [goesOn tail, word "extends", .symbol (.typeOperand tail)])],
    all [mark "?", .symbol (.typeOperand tail)],
    moduleType,
    all [typePrimary, .many (all [goesOn tail, mark "[", opt innerType, mark "]"])]]

/-- A type: operands joined by `|` and `&`, then perhaps a conditional on what it extends. -/
def typeExpression (tail : Tail) : ScriptRule :=
  let join : ScriptRule := .alt (sharp "|" ["||"]) (sharp "&" ["&&"])
  .node .typeExpression (all [
    opt join,
    .symbol (.typeOperand tail),
    .many (all [goesOn tail, join, .symbol (.typeOperand tail)]),
    opt (all [goesOn tail, word "extends", innerType, mark "?", innerType, mark ":",
      .symbol (.typed tail)])])

end ScriptModules.Grammar.ScriptRule

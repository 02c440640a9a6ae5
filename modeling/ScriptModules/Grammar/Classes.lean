import ScriptModules.Grammar.Expressions

/-!
# Class bodies

Methods, fields, static blocks and, in the typed language, signatures without a body.
-/

namespace ScriptModules.Grammar.ScriptRule

open Rule

/-- A block that runs when the class is made. -/
private def staticBlock : ScriptRule := .node .staticBlock (all [word "static", .symbol .block])

/-- A method with its body. -/
private def method (d : Dialect) : ScriptRule :=
  .node .method (all [
    methodModifiers d, .symbol .propertyName,
    (if d.hasTypes then opt (mark "?") else .empty), callSignature d .declared, .symbol .block])

/-- A method without a body. -/
private def methodSignature (d : Dialect) : ScriptRule :=
  .node .methodSignature (all [
    methodModifiers d, .symbol .propertyName, opt (mark "?"), callSignature d .declared])

/-- A method that subclasses have to provide. -/
private def abstractMethod (d : Dialect) : ScriptRule :=
  .node .abstractMethodSignature (all [
    opt (modifier accessibility []), word "abstract", opt (modifier overriding ["*"]),
    opt (any [modifier (word "get") [], modifier (word "set") [], mark "*"]),
    .symbol .propertyName, opt (mark "?"), callSignature d .declared])

/-- A field of the typed language. -/
private def typedField : ScriptRule :=
  let optWord (text : String) : ScriptRule := opt (modifier (word text) [])
  let named (text : String) : ScriptRule := all [word text, .peek (any
    [anyWord .identifier, privateName, string, number, mark "["])]
  .node .field (all [
    .many (.symbol .decorator),
    any [
      all [modifier (word "declare") [], opt (modifier accessibility [])],
      all [modifier accessibility [], optWord "declare"],
      .empty],
    any [
      named "accessor",
      all [named "abstract", optWord "readonly"],
      all [modifier (word "readonly") [], named "abstract"],
      all [optWord "static", opt (modifier overriding []), optWord "readonly"]],
    .deny (all [.alt (word "abstract") (word "accessor")]),
    .symbol .propertyName,
    opt (.alt (mark "?") (all [goesOn .declared, sharp "!" ["!="]])),
    opt (typeAscription .declared),
    opt (initializer .operand)])

/-- A field of the plain language. -/
private def plainField : ScriptRule :=
  .node .field (all [
    .many (.symbol .decorator), opt (modifier (word "static") []), .symbol .propertyName,
    opt (initializer .operand)])

/-- The braces and members of a class. -/
def classBody (d : Dialect) : ScriptRule :=
  let close : ScriptRule := mark "\x7d"
  let ending : ScriptRule := .alt (mark ",") (.alt (mark ";") (lineEnd false false))
  let afterField : ScriptRule :=
    .alt (mark ",") (.alt (mark ";") (.alt (lineEnd true false) (lineEnd false false)))
  let typedMembers : List ScriptRule := [
    all [methodSignature d, .alt (mark ",") (semicolon false true)],
    all [abstractMethod d, ending],
    all [indexSignature .declared, ending],
    all [typedField, afterField]]
  let members : List ScriptRule :=
    [ staticBlock,
      all [.many (.symbol .decorator), method d, opt (semicolon false false)]] ++
    (if d.hasTypes then typedMembers else [all [plainField, semicolon false false]]) ++
    [mark ";"]
  .node .classBody (all [mark "\x7b", .many (any members), close])

end ScriptModules.Grammar.ScriptRule

import ScriptModules.Grammar.Types

/-!
# Markup elements

Elements with a name, attributes and children. The names of an opening and a closing tag are not
compared.
-/

namespace ScriptModules.Grammar.ScriptRule

open Rule

/-- A name of an element or attribute, which may contain hyphens. -/
private def markupName (kind : Kind) : ScriptRule :=
  .alt (.token (.lexeme kind true .hyphenName)) (anyWord kind)

/-- The name of an element: plain, dotted or with a namespace. -/
private def elementName (d : Dialect) : ScriptRule :=
  let arguments : ScriptRule :=
    if d.hasTypes then opt (.symbol .typeArguments) else .empty
  any [
    all [markupName .identifier, mark ":", markupName .identifier],
    all [.token (.lexeme .identifier true .hyphenName)],
    all [.group (all [anyWord .identifier,
      .many (.absorb .member (all [mark ".", anyWord .propertyName]))]), arguments]]

/-- An expression in braces, which may be empty or spread its value. -/
private def markupExpression : ScriptRule :=
  .node .markupExpression (all [mark "\x7b",
    opt (.alt (.node .spread (all [mark "...", innerExpression])) (.symbol .expressions)),
    mark "\x7d"])

/-- An attribute with or without a value. -/
private def markupAttribute : ScriptRule :=
  .alt markupExpression
    (.node .markupAttribute (all [
      markupName .propertyName, opt (all [mark ":", markupName .propertyName]),
      opt (all [mark "=", any [
        .token (.lexeme .string true .markupString), markupExpression, .symbol .element]])]))

/-- An element that closes itself, or two tags with the children between them. -/
def element (d : Dialect) : ScriptRule :=
  let head : ScriptRule := all [elementName d, .many markupAttribute]
  let child : ScriptRule := any [
    .token (.lexeme .markupText false .markupText),
    .token (.lexeme .markupText true .characterReference),
    .symbol .element,
    markupExpression]
  let opening : ScriptRule :=
    .node .openingTag (all [sharp "<" ["</"], opt head, mark ">"])
  .alt
    (.node .selfClosingElement (all [sharp "<" ["</"], head, mark "/>"]))
    (.node .element (all [
      opening, .many child,
      .node .closingTag (all [mark "</", opt (elementName d), mark ">"])]))

end ScriptModules.Grammar.ScriptRule

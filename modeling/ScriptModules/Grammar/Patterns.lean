import ScriptModules.Grammar.Types

/-!
# Patterns and parameters

What may stand on the left of an assignment, in a binding and between the parentheses of a
function. A binding target is a name, a member of something, or a pattern of such targets.
-/

namespace ScriptModules.Grammar.ScriptRule

open Rule

/-- Members and subscripts of the target just read. -/
private def targetSteps : ScriptRule :=
  .many (any [
    .absorb .member (all [.alt (mark ".") (mark "?."), .alt privateName (anyWord .propertyName)]),
    .absorb .subscript (all [mark "[", .symbol .expressions, mark "]"])])

/-- A name or pattern, or a member of something, that takes a value. -/
def target (d : Dialect) : ScriptRule :=
  any [
    .group (all [identifier (expressionWords d), targetSteps]),
    .group (all [.token (.keyword .undefined "undefined"), targetSteps]),
    .group (all [word "this", .peek (.alt (mark ".") (mark "[")), targetSteps]),
    .symbol .destructuring]

/-- A target, or the rest of the values. -/
def pattern (d : Dialect) : ScriptRule :=
  any [.node .rest (all [mark "...", target d]), target d]

/-- A target with the value it takes when there is none. -/
def withDefault (r : ScriptRule) : ScriptRule :=
  .group (all [r, opt (.absorb .assignmentPattern (all [mark "=", innerExpression]))])

/-- `\x7bname, name: target, …\x7d`. -/
def objectPattern (d : Dialect) : ScriptRule :=
  let item : ScriptRule := any [
    .node .pairPattern (all [.symbol .propertyName, mark ":", withDefault (.symbol .pattern)]),
    .node .rest (all [mark "...", target d]),
    withDefault (anyWord .shorthandPattern)]
  .node .objectPattern (all [mark "\x7b", holedList item, mark "\x7d"])

/-- `[target, …]`. -/
def arrayPattern : ScriptRule :=
  .node .arrayPattern (all [mark "[", holedList (withDefault (.symbol .pattern)), mark "]"])

/-- A pattern in braces or brackets. -/
def destructuring (d : Dialect) : ScriptRule := .alt (objectPattern d) arrayPattern

/-- A parameter of the typed language, with its modifiers, type and default value. -/
def typedParameter : ScriptRule :=
  let starts : List String := ["\x7b", "["]
  let ahead : ScriptRule := .peek (any (anyWord .identifier :: starts.map mark))
  .group (all [
    .many (.symbol .decorator),
    opt (all [accessibility, ahead]),
    opt (all [overriding, ahead]),
    opt (all [word "readonly", ahead]),
    .alt (.symbol .pattern) (word "this"),
    .alt
      (.absorb .optionalParameter (all [mark "?", opt (typeAscription .inner),
        opt (initializer .inner)]))
      (.absorb .requiredParameter (all [opt (typeAscription .inner), opt (initializer .inner)]))])

/-- The parameters of a function. -/
def parameters (d : Dialect) : ScriptRule :=
  let parameter := if d.hasTypes then typedParameter else withDefault (.symbol .pattern)
  .node .parameters (all [
    mark "(", opt (all [commaList parameter, opt (mark ",")]), mark ")"])

/-- The name of a member of an object or class. -/
def propertyName : ScriptRule :=
  any [
    anyWord .propertyName, privateName, string, number,
    .node .computedName (all [mark "[", innerExpression, mark "]"])]

end ScriptModules.Grammar.ScriptRule

import ScriptModules.Grammar.Lexeme

/-!
# Where a line end closes a statement

A statement may end without a semicolon at the end of the text, before a closing brace and at a
line break. A line break does not count before a token that continues what stands before it. The
plain language and its typed dialect differ in a few such tokens.
-/

namespace ScriptModules.Grammar

/-- Which language a text is written in. -/
inductive Dialect where
  /-- The typed language. -/
  | typed
  /-- The typed language with markup elements. -/
  | typedMarkup
  /-- The plain language, which has markup elements as well. -/
  | plain
  deriving DecidableEq, Repr

/-- Whether type annotations belong to the language. -/
def Dialect.hasTypes : Dialect → Bool
  | .plain => false
  | _ => true

/-- Whether markup elements belong to the language. -/
def Dialect.hasMarkup : Dialect → Bool
  | .typed => false
  | _ => true

namespace LineEnd

open Lexeme

/-- What may stand after the place where a line end is looked for. -/
structure Setting where
  /-- A binary operator may follow, so an expression has just ended. -/
  operand : Bool
  /-- A function body may follow, so a signature has just ended. -/
  signature : Bool

/-- The text after the blanks and comments at its head, or nothing when a slash stands there that
opens no comment. The first `inner` characters belong to a comment that has begun. -/
def gap? (inner : Nat) : List Char → Option (List Char)
  | [] => some []
  | c :: r =>
    match inner with
    | n + 1 => gap? n r
    | 0 =>
      if isAsciiBlank c then gap? 0 r
      else match c, r with
        | '/', '/' :: _ => gap? (r.takeWhile (· != '\n')).length r
        | '/', '*' :: _ =>
          match comment? (c :: r) with
          | some n => gap? (n - 1) r
          | none => some []
        | '/', _ => none
        | _, _ => some (c :: r)

/-- Whether a word at the head starts with `in` and goes on as `in` or `instanceof` do, which
continue an expression; they do so only when a letter does not follow. -/
def continuesWithIn (cs : List Char) : Bool :=
  match cs with
  | 'i' :: 'n' :: r =>
    match r with
    | c :: _ =>
      if !c.isAlpha then true
      else "stanceof".toList.isPrefixOf r && !(r.drop 8).head?.any Char.isAlpha
    | [] => true
  | _ => false

/-- The marks that never start a statement in either language. -/
private def continuing : List Char := "\x60,;*%><=?^|&/:".toList

/-- Whether a line break counts, going by the text of the next line. -/
def breakCounts (d : Dialect) (s : Setting) (cs : List Char) : Bool :=
  match gap? 0 cs with
  | none => false
  | some [] => true
  | some (c :: r) =>
    if continuing.contains c then false
    else if c == '.' then !d.hasTypes && r.head?.any Char.isDigit
    else if c == '\x7b' then !(d.hasTypes && s.signature)
    else if c == '(' || c == '[' then d.hasTypes && !s.operand
    else if c == '+' then r.head? == some '+'
    else if c == '-' then r.head? == some '-'
    else if c == '!' then r.head? != some '='
    else !continuesWithIn (c :: r)

/-- Whether the rest of a text, after a closing brace, starts with a colon. -/
private def colonAhead (cs : List Char) : Bool :=
  (cs.dropWhile isAsciiBlank).head? == some ':'

/-- How the comments ahead count in the plain language: `none` when a slash opens no comment,
else the text after them and whether a line break was passed. Block comments stop the look
ahead unless another comment follows at once. -/
def comments? : Nat → Bool → List Char → Option (Bool × List Char)
  | 0, _, cs => some (true, cs)
  | _, _, [] => some (true, [])
  | limit + 1, broken, c :: r =>
    if isAsciiBlank c then comments? limit broken r
    else match c, r with
      | '/', '/' :: _ =>
        comments? limit broken (r.dropWhile fun x => x != '\n' && x != '\u2028' && x != '\u2029')
      | '/', '*' :: rest =>
        match comment? (c :: r) with
        | none => some (true, [])
        | some n =>
          let body := rest.take (n - 4)
          let broken := broken || body.any fun x => x == '\n' || x == '\u2028' || x == '\u2029'
          let after := rest.drop (n - 2)
          if after.head? == some '/' then comments? limit broken after else some (broken, after)
      | '/', _ => none
      | _, _ => some (true, c :: r)

/-- Whether a line end closes a statement at the head of the text. Reads at most `limit` blanks
and comments before the line break. -/
def closes (d : Dialect) (s : Setting) : Nat → List Char → Bool
  | 0, _ => false
  | _, [] => true
  | limit + 1, c :: r =>
    if c.val == 0 then true
    else if d.hasTypes then
      if c == '\x7d' then !colonAhead r || s.operand
      else if c == '\n' then breakCounts d s r
      else isAsciiBlank c && closes d s limit r
    else if c == '/' then
      match comments? (r.length + 1) false (c :: r) with
      | none => false
      | some (broken, after) =>
        if broken && !s.operand && after.head? != some ',' && after.head? != some '=' then true
        else match after with
          | [] => true
          | x :: rest =>
            if x == '\x7d' then true
            else if x == '\n' || x == '\u2028' || x == '\u2029' then breakCounts d s rest
            else isAsciiBlank x && closes d s limit rest
    else if c == '\x7d' then true
    else if c == '\n' || c == '\u2028' || c == '\u2029' then breakCounts d s r
    else isAsciiBlank c && closes d s limit r

end LineEnd

end ScriptModules.Grammar

import ScriptModules.Grammar.Tree
import ScriptModules.Grammar.LineEnd

/-!
# Grammar rules and how they read

A grammar gives one rule for each of its symbols. A rule reads from a cursor and answers with
the trees it built and the cursor after them, or with nothing. A choice takes the first
alternative that applies and a repetition takes as much as it can, so reading is a function of
the grammar and the text.
-/

namespace ScriptModules.Grammar

/-- A place in a text: what remains to be read and the byte offset reached. -/
structure Cursor where
  rest : List Char
  offset : Nat
  /-- How many characters remain. -/
  size : Nat
  size_eq : size = rest.length

namespace Cursor

/-- The place before any text has been read. -/
def ofText (cs : List Char) : Cursor := ⟨cs, 0, cs.length, rfl⟩

/-- The place after the next `n` characters. -/
def advance : Nat → Cursor → Cursor
  | 0, c => c
  | _, ⟨[], offset, size, h⟩ => ⟨[], offset, size, h⟩
  | n + 1, ⟨c :: r, offset, size, h⟩ => advance n ⟨r, offset + c.utf8Size, size - 1, by simp [h]⟩

/-- Step over blanks. -/
def skipBlanks (c : Cursor) : Cursor := c.advance (c.rest.takeWhile Lexeme.isBlank).length

/-- The leaf made of the next `n` characters, and the place after it. -/
def leaf (kind : Kind) (n : Nat) (c : Cursor) : Tree × Cursor :=
  let after := c.advance n
  (.leaf kind ⟨c.offset, after.offset⟩ (String.ofList (c.rest.take n)), after)

/-- Step over blanks and at most `limit` comments, keeping the comments. -/
def skipTrivia : Nat → Cursor → Forest × Cursor
  | 0, c => ([], c.skipBlanks)
  | limit + 1, c =>
    let c := c.skipBlanks
    match Lexeme.comment? c.rest with
    | none => ([], c)
    | some n =>
      let (comment, after) := c.leaf .comment n
      let (more, last) := skipTrivia limit after
      (comment :: more, last)

/-- Step over everything that may stand before a token. -/
def toToken (c : Cursor) : Forest × Cursor := c.skipTrivia c.size

end Cursor

/-- The question mark of a conditional expression. It is not the start of `??` or `?.`, unless a
digit follows the point, and in the typed language not the mark of an optional name. -/
def conditionalMark? (d : Dialect) : List Char → Option Nat
  | '?' :: r =>
    match r with
    | '?' :: _ => none
    | '.' :: after => if !d.hasTypes && after.head?.any Char.isDigit then some 1 else none
    | _ =>
      if d.hasTypes then
        match r.dropWhile Lexeme.isAsciiBlank with
        | '.' :: after => if after.head?.any Char.isDigit then some 1 else none
        | c :: _ => if c == ':' || c == ')' || c == ',' then none else some 1
        | [] => some 1
      else some 1
  | _ => none

/-- The tokens whose text is not given by a list of words or marks. -/
inductive Form where
  | privateName
  | string
  | number
  | regex
  | templateText
  /-- An escape in a template. -/
  | escape
  | hashbang
  | markupComment
  | hyphenName
  | markupText
  | characterReference
  | markupString
  | conditionalMark
  deriving DecidableEq, Repr

/-- How many characters a token of a form takes. -/
def Form.read? (d : Dialect) : Form → List Char → Option Nat
  | privateName => Lexeme.privateName?
  | string => Lexeme.string?
  | number => Lexeme.number?
  | regex => Lexeme.regex?
  | templateText => Lexeme.templateText?
  | escape => Lexeme.escape?
  | hashbang => Lexeme.hashbang?
  | markupComment => Lexeme.markupComment?
  | hyphenName => Lexeme.hyphenName?
  | markupText => Lexeme.markupText?
  | characterReference => Lexeme.characterReference?
  | markupString => Lexeme.markupString?
  | conditionalMark => conditionalMark? d

/-- The tokens of the script language. -/
inductive Terminal where
  /-- A mark that is not the start of any of the longer marks. -/
  | mark (text : String) (longer : List String)
  /-- A mark that has to follow what was read before without a gap. -/
  | tight (text : String)
  /-- A keyword, recorded as the given kind. -/
  | keyword (kind : Kind) (text : String)
  /-- A word outside a list of words, recorded as the given kind. -/
  | name (kind : Kind) (reserved : List String)
  /-- A token of a form; `gap` tells whether blanks and comments may stand before it. -/
  | lexeme (kind : Kind) (gap : Bool) (form : Form)
  /-- A line end that closes a statement. -/
  | lineEnd (setting : LineEnd.Setting)
  /-- The end of the text. -/
  | finish

/-- Look for a line end here and after each of at most `limit` comments that follow. -/
def Cursor.lineEnd? (d : Dialect) (s : LineEnd.Setting) : Nat → Cursor → Option (Forest × Cursor)
  | 0, _ => none
  | limit + 1, c =>
    if LineEnd.closes d s (c.size + 1) c.rest then
      some ([.leaf .lineEnd ⟨c.offset, c.offset⟩ ""], c)
    else
      let gap := c.skipBlanks
      match Lexeme.comment? gap.rest with
      | none => none
      | some n =>
        let (comment, after) := gap.leaf .comment n
        (lineEnd? d s limit after).map fun (forest, last) => (comment :: forest, last)

/-- Read one token that a reader describes, after blanks and comments where a gap is allowed. -/
def Cursor.lexeme? (kind : Kind) (gap : Bool) (read? : List Char → Option Nat) (c : Cursor) :
    Option (Forest × Cursor) :=
  let (comments, start) := if gap then c.toToken else ([], c)
  (read? start.rest).map fun n =>
    let (leaf, after) := start.leaf kind n
    (comments ++ [leaf], after)

/-- Read one token. -/
def Terminal.read? (d : Dialect) : Terminal → Cursor → Option (Forest × Cursor)
  | mark text longer, c => c.lexeme? (.mark text) true (Lexeme.mark? text longer)
  | tight text, c => c.lexeme? (.mark text) false (Lexeme.mark? text [])
  | keyword kind text, c => c.lexeme? kind true (Lexeme.keyword? text)
  | name kind reserved, c => c.lexeme? kind true (Lexeme.name? reserved)
  | lexeme kind gap form, c => c.lexeme? kind gap (form.read? d)
  | lineEnd setting, c => c.lineEnd? d setting (c.size + 1)
  | finish, c =>
    let (comments, last) := c.toToken
    if last.rest.isEmpty then some (comments, last) else none

/-- How to read a piece of text, over a type of symbols that name other rules. -/
inductive Rule (σ : Type) where
  /-- Reads nothing. -/
  | empty
  /-- Reads one token. -/
  | token (t : Terminal)
  /-- Reads what the rule of a symbol reads. -/
  | symbol (s : σ)
  /-- Reads one part and then the other. -/
  | seq (first second : Rule σ)
  /-- Reads the first alternative that applies. -/
  | alt (first second : Rule σ)
  /-- Reads a part as often as it applies. -/
  | many (part : Rule σ)
  /-- Reads a part on its own, apart from what stands before it in a sequence. -/
  | group (part : Rule σ)
  /-- Gathers what the part reads under a node. -/
  | node (kind : Kind) (part : Rule σ)
  /-- Gathers what the part reads under a node, along with what stands before it. -/
  | absorb (kind : Kind) (part : Rule σ)
  /-- Applies when the tree just read is an accepted one, and reads nothing. -/
  | check (accepts : Tree → Bool)
  /-- Applies when the part does, but reads nothing. -/
  | peek (part : Rule σ)
  /-- Applies when the part does not, and reads nothing. -/
  | deny (part : Rule σ)

/-- What a rule answers: the trees so far, those before it in the sequence included, and the
place reached. -/
abbrev Outcome := Option (Forest × Cursor)

/-- Repeat a step at most `limit` times, and no longer than it moves on. -/
def repeatStep (step : Forest → Cursor → Outcome) : Nat → Forest → Cursor → Forest × Cursor
  | 0, left, c => (left, c)
  | limit + 1, left, c =>
    match step left c with
    | none => (left, c)
    | some (forest, after) =>
      if after.offset = c.offset then (left, c) else repeatStep step limit forest after

/-- Read by a rule, given how the symbols are read. `left` holds what the enclosing sequence has
read before. -/
def Rule.read {σ : Type} (d : Dialect) (readSymbol : σ → Cursor → Outcome) :
    Rule σ → Forest → Cursor → Outcome
  | empty, left, c => some (left, c)
  | token t, left, c => (t.read? d c).map fun (forest, after) => (left ++ forest, after)
  | symbol s, left, c => (readSymbol s c).map fun (forest, after) => (left ++ forest, after)
  | seq a b, left, c =>
    match a.read d readSymbol left c with
    | none => none
    | some (forest, after) => b.read d readSymbol forest after
  | alt a b, left, c =>
    match a.read d readSymbol left c with
    | none => b.read d readSymbol left c
    | found => found
  | many part, left, c =>
    some (repeatStep (part.read d readSymbol) (c.size + 1) left c)
  | group part, left, c =>
    (part.read d readSymbol [] c).map fun (forest, after) => (left ++ forest, after)
  | node kind part, left, c =>
    (part.read d readSymbol [] c).map fun (forest, after) =>
      (left ++ Forest.gather kind c.offset forest, after)
  | absorb kind part, left, c =>
    (part.read d readSymbol left c).map fun (forest, after) =>
      (Forest.gather kind c.offset forest, after)
  | check accepts, left, c => if left.getLast?.any accepts then some (left, c) else none
  | peek part, left, c => (part.read d readSymbol [] c).map fun _ => (left, c)
  | deny part, left, c =>
    match part.read d readSymbol [] c with
    | none => some (left, c)
    | some _ => none

/-- Read a symbol of a grammar, following at most `depth` symbols inside one another. -/
def readSymbol {σ : Type} (d : Dialect) (rules : σ → Rule σ) : Nat → σ → Cursor → Outcome
  | 0, _, _ => none
  | depth + 1, s, c => (rules s).read d (readSymbol d rules depth) [] c

namespace Rule

variable {σ : Type}

/-- Reads the parts one after the other. -/
def all : List (Rule σ) → Rule σ
  | [] => .empty
  | [r] => r
  | r :: rs => .seq r (all rs)

/-- Reads the first of the alternatives that applies. -/
def any : List (Rule σ) → Rule σ
  | [] => .deny .empty
  | [r] => r
  | r :: rs => .alt r (any rs)

/-- Reads a part if it applies. -/
def opt (r : Rule σ) : Rule σ := .alt r .empty

/-- A mark, whatever follows it. -/
def mark (text : String) : Rule σ := .token (.mark text [])

/-- A mark that does not start one of the longer marks. -/
def sharp (text : String) (longer : List String) : Rule σ := .token (.mark text longer)

/-- A keyword, recorded by its spelling. -/
def word (text : String) : Rule σ := .token (.keyword (.mark text) text)

/-- One of several keywords. -/
def oneWord (texts : List String) : Rule σ := any (texts.map word)

/-- A word of any spelling but the given ones. -/
def name (kind : Kind) (reserved : List String) : Rule σ := .token (.name kind reserved)

/-- One or more parts with commas between them. -/
def commaList (r : Rule σ) : Rule σ := .seq r (.many (.seq (mark ",") r))

/-- Parts with commas between them, any of which may be left out. -/
def holedList (r : Rule σ) : Rule σ := .seq (opt r) (.many (.seq (mark ",") (opt r)))

/-- Nothing is read when a condition does not hold. -/
def onlyIf (b : Bool) (r : Rule σ) : Rule σ := if b then r else .deny .empty

end Rule

end ScriptModules.Grammar

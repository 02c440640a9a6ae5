import ScriptModules.Grammar.Trace
import ScriptModules.Text.Position

/-!
# Drafts

A draft is a text under repair. Every character knows where in the source it stands, so that parts
can be left out or added and the trees that are read still cover ranges of the source.
-/

namespace ScriptModules.Grammar

/-- A character of a draft and the range of the source that it stands for. -/
structure Glyph where
  char : Char
  start : Nat
  stop : Nat
  deriving DecidableEq, Repr

/-- The characters of a source. -/
def glyphsOf (cs : List Char) : List Glyph :=
  (Text.withOffsets 0 cs).map fun (offset, c) => ⟨c, offset, offset + c.utf8Size⟩

/-- The text of a draft. -/
def textOf (glyphs : List Glyph) : List Char := glyphs.map Glyph.char

/-- A blank that is no line end. It stands where something was left out or added, so that no line
end is read there that is not in the source. -/
def joint (offset : Nat) : Glyph := ⟨'\u2060', offset, offset⟩

/-- Something that is added to a text, followed by a joint. -/
def added (offset : Nat) (text : String) : List Glyph :=
  text.toList.map (⟨·, offset, offset⟩) ++ [joint offset]

/-- The glyphs before and after a byte offset of a draft. -/
def splitGlyphs (offset : Nat) : List Glyph → List Glyph × List Glyph
  | [] => ([], [])
  | g :: r =>
    if offset = 0 then ([], g :: r)
    else
      let (before, after) := splitGlyphs (offset - g.char.utf8Size) r
      (g :: before, after)

/-- The source offsets of the places in a draft: where something starts and where it stops. -/
structure SourceOffsets where
  starts : Array Nat := #[]
  stops : Array Nat := #[]

/-- Where the places of a draft are in the source. Something that stops stops with the glyph
before the place. -/
def SourceOffsets.ofGlyphs (start : Nat) (glyphs : List Glyph) : SourceOffsets :=
  let all := glyphs.foldl (fun (s : SourceOffsets × Nat) g =>
    let n := g.char.utf8Size
    (⟨s.1.starts ++ Array.replicate n g.start,
      s.1.stops.push s.2 ++ Array.replicate (n - 1) g.stop⟩, g.stop)) ({}, start)
  ⟨all.1.starts.push all.2, all.1.stops.push all.2⟩

/-- The range of the source that a range of a draft stands for. -/
def SourceOffsets.span (o : SourceOffsets) (s : Span) : Span :=
  ⟨o.starts.getD s.start 0, o.stops.getD s.stop 0⟩

mutual

/-- A tree with its ranges replaced. -/
def Tree.moved (f : Span → Span) : Tree → Tree
  | leaf kind span text => leaf kind (f span) text
  | node kind span children => node kind (f span) (movedAll f children)

/-- Trees with their ranges replaced. -/
def Tree.movedAll (f : Span → Span) : List Tree → List Tree
  | [] => []
  | t :: ts => moved f t :: movedAll f ts

end

/-- The marks of more than one character. -/
private def longMarks : List String :=
  [">>>=", "...", "===", "!==", "**=", "<<=", ">>=", ">>>", "&&=", "||=", "??=", "=>", "==", "!=",
    "<=", ">=", "&&", "||", "??", "?.", "++", "--", "+=", "-=", "*=", "/=", "%=", "&=", "|=", "^=",
    "<<", ">>", "**"]

/-- The length of a mark. -/
private def markLength (cs : List Char) : Nat :=
  ((longMarks.find? fun m => m.toList.isPrefixOf cs).map String.length).getD 1

/-- The length of the token at the head of a text that is not empty. -/
def tokenLength (cs : List Char) : Nat :=
  ((((Lexeme.string? cs).orElse fun _ => Lexeme.number? cs).orElse
    fun _ => Lexeme.privateName? cs).orElse fun _ => Lexeme.word? cs).getD (markLength cs)

/-- The next token of a draft and the place after it, if there is one. -/
def nextToken? (c : Cursor) : Option (Span × Cursor) :=
  let start := c.toToken.2
  if start.rest.isEmpty then none
  else
    let after := start.advance (tokenLength start.rest)
    some (⟨start.offset, after.offset⟩, after)

/-- What a text has been read as so far: a construct, or a token that none holds. -/
structure Piece where
  span : Span
  forest : Forest := []

/-- The longest construct at a place that ends before an offset. -/
def constructAt? (d : Dialect) (limit : Nat) (c : Cursor) : Option (Forest × Cursor) :=
  let within (s : Symbol) : Option (Forest × Cursor) :=
    (readAt d s c).filter fun (_, after) => c.offset < after.offset && after.offset ≤ limit
  (within .statement).orElse fun _ => within (.expression .inner true)

/-- The pieces of a text up to an offset, at most `fuel` of them. -/
def pieces (d : Dialect) (limit : Nat) : Nat → Cursor → List Piece
  | 0, _ => []
  | fuel + 1, c =>
    let c := c.toToken.2
    if c.rest.isEmpty || limit ≤ c.offset then []
    else
      match constructAt? d limit c with
      | some (forest, after) =>
        ⟨Forest.span c.offset forest, forest⟩ :: pieces d limit fuel after
      | none =>
        match nextToken? c with
        | some (span, after) => ⟨span, []⟩ :: pieces d limit fuel after
        | none => []

/-- Statements as far as they can be read. -/
structure Progress where
  forest : Forest
  /-- The place where the next statement does not apply. -/
  stuck : Cursor
  /-- The offset just past the furthest token that was read. -/
  reach : Nat

/-- Whether everything was read. -/
def Progress.isComplete (p : Progress) : Bool := p.stuck.toToken.2.rest.isEmpty

/-- Read at most `limit` statements. -/
def readStatements (d : Dialect) : Nat → Forest → Cursor → Progress
  | 0, forest, c => ⟨forest, c, c.offset⟩
  | limit + 1, forest, c =>
    let readInner := traceSymbol d (rules d) (depthBound c.size)
    let t := ScriptRule.statementOrComment.trace d readInner [] c
    match t.outcome with
    | none => ⟨forest, c, max c.offset t.reach⟩
    | some (more, after) =>
      if after.offset = c.offset then ⟨forest, c, max c.offset t.reach⟩
      else readStatements d limit (forest ++ more) after

/-- Read the statements of a draft. -/
def progressOf (d : Dialect) (glyphs : List Glyph) : Progress :=
  let c := Cursor.ofText (textOf glyphs)
  readStatements d (c.size + 1) [] c

end ScriptModules.Grammar

import ScriptModules.Grammar.Draft

/-!
# Repairing a text

Where a text cannot be read on, a closing mark that is missing is added, or the least recent part
that stands in the way is left out. Every repair has a cost, and the cheaper one is made.
-/

namespace ScriptModules.Grammar

/-- What was done to a text. -/
inductive Repair where
  /-- A range of the source was left out; it holds these trees. -/
  | skipped (span : Span) (forest : Forest)
  /-- A token was added. -/
  | added (offset : Nat) (token : String)
  deriving Repr

/-- Where a repair starts in the source. -/
def Repair.offset : Repair → Nat
  | skipped span _ => span.start
  | added offset _ => offset

/-- A text under repair: what has been read of it, what remains, and what was done. -/
structure Workpiece where
  done : Forest := []
  /-- Where the rest starts in the source. -/
  start : Nat := 0
  rest : List Glyph
  cost : Nat := 0
  repairs : List Repair := []

/-- The cost of adding a token. -/
def additionCost : Nat := 610

/-- The cost of leaving out a range with so many pieces. -/
def omissionCost (source : List Char) (pieces : Nat) : Nat :=
  500 + 100 * pieces + Text.bytesOf source + 30 * source.count '\n'

/-- Take the statements that can be read from what remains. -/
def Workpiece.settle (w : Workpiece) (p : Progress) : Workpiece :=
  let offsets := SourceOffsets.ofGlyphs w.start w.rest
  let stop := (offsets.span ⟨p.stuck.offset, p.stuck.offset⟩).stop
  { w with
    done := w.done ++ Tree.movedAll offsets.span p.forest
    start := stop
    rest := (splitGlyphs p.stuck.offset w.rest).2 }

/-- The tokens that may be added, each with the text that stands for it. -/
def addable : List (String × String) :=
  [("identifier", "$"), (")", ")"), ("]", "]"), ("\x7d", "\x7d"), (">", ">"), (";", ";")]

/-- The tokens before which a name may be missing. -/
private def afterOperand : List String :=
  [")", "]", "\x7d", ",", ";", ":", ".", "+", "-", "*", "/", "%", "&", "|", "^", "&&", "||", "??",
    "==", "===", "!=", "!==", "<", "<=", ">=", "<<", ">>", ">>>", "**"]

/-- Add a token after which the next one can be read, if there is one. -/
def addToken? (d : Dialect) (w : Workpiece) (p : Progress) : Option Workpiece :=
  let (before, after) := splitGlyphs p.reach w.rest
  let next? := nextToken? (Cursor.ofText (textOf after))
  let nextText := (next?.map fun (span, _) =>
    String.ofList (textOf (splitGlyphs (span.stop - span.start)
      (splitGlyphs span.start after).2).1)).getD ""
  let offset := (before.getLast?.map Glyph.stop).getD w.start
  let candidates := addable.filter fun (name, _) =>
    name != "identifier" || afterOperand.contains nextText
  let attempt? (name text : String) : Option Workpiece :=
    let mark := added offset text
    let isRead :=
      match next? with
      | none => (progressOf d (before ++ mark)).isComplete
      | some (span, _) =>
        let draft := before ++ mark ++ (splitGlyphs span.stop after).1
        Text.bytesOf (textOf draft) ≤ (progressOf d draft).reach
    if isRead && !before.isEmpty then
      some { w with
        rest := before ++ mark ++ after
        cost := w.cost + additionCost
        repairs := .added offset name :: w.repairs }
    else none
  candidates.findSome? fun (name, text) => attempt? name text

/-- How many pieces at most are left out before what cannot be read. -/
def backtrackLimit : Nat := 16

/-- Leave out the glyphs of a range along with what was done to them. -/
def omit_ (w : Workpiece) (start stop : Nat) (parts : List Piece) : Workpiece :=
  let (before, rest) := splitGlyphs start w.rest
  let (gone, after) := splitGlyphs (stop - start) rest
  let offsets := SourceOffsets.ofGlyphs w.start w.rest
  let span : Span := ⟨(gone.head?.map Glyph.start).getD w.start,
    (gone.getLast?.map Glyph.stop).getD w.start⟩
  let forest := Tree.movedAll offsets.span (parts.flatMap Piece.forest)
  { w with
    rest := before ++ joint span.stop :: after
    cost := w.cost + omissionCost (textOf gone) parts.length
    repairs := .skipped span forest ::
      w.repairs.filter fun r => r.offset < span.start || span.stop < r.offset }

/-- Leave out the latest pieces after which a token can be read, and if there are none, the token
and so on. Without a token left, what remains is left out as a whole. -/
def omitUntil (d : Dialect) (w : Workpiece) (parts : List Piece) :
    Nat → List Piece → Cursor → Workpiece
  | 0, _, _ => w
  | fuel + 1, skipped, c =>
    let all := parts ++ skipped
    let stop := ((all.getLast?).map fun p => p.span.stop).getD 0
    let places := (parts.reverse.map fun p => p.span.start).take backtrackLimit
    let places :=
      match skipped.head? with
      | some p => p.span.start :: places
      | none => places
    let without (start : Nat) : Workpiece :=
      omit_ w start stop (all.filter fun p => start ≤ p.span.start)
    match nextToken? c with
    | none =>
      match places.find? fun start => (progressOf d (without start).rest).isComplete with
      | some start => without start
      | none => without 0
    | some (token, after) =>
      let isRead (start : Nat) : Bool :=
        let draft := (splitGlyphs start w.rest).1 ++ joint 0 ::
          (splitGlyphs (token.stop - stop) (splitGlyphs stop w.rest).2).1
        Text.bytesOf (textOf draft) ≤ (progressOf d draft).reach
      match places.find? isRead with
      | some start => without start
      | none => omitUntil d w parts fuel (skipped ++ [⟨token, []⟩]) after

/-- Leave out what stands in the way. -/
def omitPieces (d : Dialect) (w : Workpiece) (p : Progress) : Workpiece :=
  let c := Cursor.ofText (textOf w.rest)
  let parts := pieces d p.reach (c.size + 1) c
  omitUntil d w parts (c.size + 1) [] (c.advance (splitGlyphs p.reach w.rest).1.length)

/-- What a repair costs together with the next one, if there has to be one. -/
def prospect (d : Dialect) (w : Workpiece) : Nat :=
  w.cost + (if (progressOf d w.rest).isComplete then 0 else 601)

/-- Repair a text until it can be read, with at most `fuel` repairs. After that the rest is left
out. -/
def repair (d : Dialect) : Nat → Workpiece → Workpiece
  | 0, w =>
    let stop := Text.bytesOf (textOf w.rest)
    { omit_ w 0 stop [] with rest := [] }
  | fuel + 1, w =>
    let p := progressOf d w.rest
    let settled := w.settle p
    if p.isComplete then settled
    else
      let p := progressOf d settled.rest
      let shorter := omitPieces d settled p
      match addToken? d settled p with
      | none => repair d fuel shorter
      | some longer =>
        repair d fuel (if prospect d longer < prospect d shorter then longer else shorter)

/-- How many repairs are made. -/
def repairLimit : Nat := 64

/-- Repair a source. -/
def repaired (d : Dialect) (cs : List Char) : Workpiece :=
  let n := (Lexeme.hashbang? cs).getD 0
  let (before, rest) := (cs.take n, (glyphsOf cs).drop n)
  repair d repairLimit { start := Text.bytesOf before, rest := rest }

end ScriptModules.Grammar

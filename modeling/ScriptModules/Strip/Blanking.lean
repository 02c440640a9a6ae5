import ScriptModules.Grammar.Tree
import ScriptModules.Text.Position

/-!
# Blanking ranges of a text

A character inside a blanked range becomes as many spaces as it has UTF-16 code units, so
that whatever follows keeps its column. Line breaks are never blanked. The ranges may overlap
and come in any order: one sweep over the text keeps a single current range.
-/

namespace ScriptModules.Strip

open Grammar (Span)

/-- A character that is written where a range was blanked, at the given byte offset. -/
structure Moved where
  offset : Nat
  char : Char
  deriving DecidableEq, Repr

/-- Advance the sweep to an offset: a range that ended gives way to the next one that has
started. -/
def settle (offset : Nat) : Option Span → List Span → Option Span × List Span
  | current, [] => (current, [])
  | current, next :: later =>
    if current.all (·.stop ≤ offset) && next.start ≤ offset then
      settle offset (some next) later
    else (current, next :: later)

/-- What stands in place of a blanked character. -/
def blankOf (moved : List Moved) (offset : Nat) (c : Char) : List Char :=
  match moved.find? (·.offset == offset) with
  | some m => m.char :: List.replicate (Text.units c - 1) ' '
  | none => List.replicate (Text.units c) ' '

/-- Sweep over a text from an offset, given the current range and the ranges to come. -/
def sweep (moved : List Moved) : Nat → Option Span → List Span → List Char → List Char
  | _, _, _, [] => []
  | offset, current, later, c :: r =>
    let (current, later) := settle offset current later
    let out :=
      if current.any (·.holds offset) && c != '\n' && c != '\r' then blankOf moved offset c
      else [c]
    out ++ sweep moved (offset + c.utf8Size) current later r

/-- Blank every given range of a text. -/
def blankRanges (ranges : List Span) (moved : List Moved) (source : List Char) : List Char :=
  sweep moved 0 none (ranges.mergeSort fun a b => a.start ≤ b.start) source

end ScriptModules.Strip

import ScriptModules.Text.Split

/-!
# Places in a text

Offsets count bytes of UTF-8, lines and columns count from one, and widths count UTF-16 code
units.
-/

namespace ScriptModules.Text

/-- A line and a column, both counted from one; columns count characters. -/
structure Position where
  line : Nat
  column : Nat
  deriving DecidableEq, Repr, Inhabited

/-- The number of UTF-16 code units of a character. -/
def units (c : Char) : Nat := if c.val.toNat < 0x10000 then 1 else 2

/-- The number of UTF-16 code units of a text. -/
def unitsOf (cs : List Char) : Nat := cs.foldr (fun c n => units c + n) 0

/-- The number of bytes of a text. -/
def bytesOf (cs : List Char) : Nat := cs.foldr (fun c n => c.utf8Size + n) 0

/-- Each character with the byte offset where it starts. -/
def withOffsets : Nat → List Char → List (Nat × Char)
  | _, [] => []
  | offset, c :: r => (offset, c) :: withOffsets (offset + c.utf8Size) r

/-- The characters that start before a byte offset. -/
def before : Nat → List Char → List Char
  | _, [] => []
  | offset, c :: r => if offset = 0 then [] else c :: before (offset - c.utf8Size) r

/-- The characters that start at a byte offset or later. -/
def fromOffset : Nat → List Char → List Char
  | _, [] => []
  | offset, c :: r => if offset = 0 then c :: r else fromOffset (offset - c.utf8Size) r

/-- The place after one more character. -/
def Position.next (p : Position) (c : Char) : Position :=
  if c == '\n' then ⟨p.line + 1, 1⟩ else ⟨p.line, p.column + 1⟩

/-- The line and column of a byte offset. -/
def positionAt (offset : Nat) (cs : List Char) : Position :=
  (before offset cs).foldl Position.next ⟨1, 1⟩

/-- The pieces of a text between the line feeds. -/
def lines (cs : List Char) : List (List Char) := splitAt '\n' cs

end ScriptModules.Text

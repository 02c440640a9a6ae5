import ScriptModules.SourceMap.Basic
import ScriptModules.Text.Base64

/-!
# The mappings text

Every field of a segment is written as the difference to the same field before it, in base-32
digits with the lowest first. Generated columns start anew on each line; segments are separated
by commas and lines by semicolons.
-/

namespace ScriptModules.SourceMap

/-- A number with its sign in the lowest bit. -/
def signBit (n : Int) : Nat := if n < 0 then 2 * n.natAbs + 1 else 2 * n.natAbs

/-- The digits of a number, lowest first; all but the last have the bit that continues. -/
def quantityDigits (n : Nat) : List Char :=
  if n < 32 then [Text.Base64.digit n]
  else Text.Base64.digit (n % 32 + 32) :: quantityDigits (n / 32)
termination_by n

/-- A number as a variable-length quantity. -/
def encodeQuantity (n : Int) : List Char := quantityDigits (signBit n)

/-- Why a mappings text cannot be read, and the byte offset where. -/
structure MappingsFault where
  offset : Nat
  reason : String
  deriving DecidableEq, Repr

/-- The number that a 64-bit word holds with its sign in the lowest bit. -/
def ofSignBit (word : Nat) : Int :=
  let word : Nat := word % Nat.pow 2 64
  let n : Int := if word < Nat.pow 2 63 then (word : Int) else (word : Int) - Nat.pow 2 64
  if word % 2 == 1 then -(n.fdiv 2) else n.fdiv 2

/-- Read the quantities of a segment. `word` and `shift` hold what the digits before have given. -/
def decodeQuantities (offset word shift : Nat) : List Char → Except MappingsFault (List Int)
  | [] => if shift = 0 then .ok [] else .error ⟨offset, "unterminated VLQ value"⟩
  | c :: r =>
    match Text.Base64.value? c with
    | none => .error ⟨offset, "invalid base64 digit"⟩
    | some d =>
      let word := word + (d % 32) * Nat.pow 2 shift
      if d < 32 then do
        let more ← decodeQuantities (offset + 1) 0 0 r
        return ofSignBit word :: more
      else if shift + 5 > 60 then .error ⟨offset, "VLQ value overflows"⟩
      else decodeQuantities (offset + 1) word (shift + 5) r

/-- The fields that differences are taken to. -/
structure Fields where
  generatedColumn : Int := 0
  source : Int := 0
  originalLine : Int := 0
  originalColumn : Int := 0
  name : Int := 0
  deriving DecidableEq, Repr

/-- The fields after a segment. -/
def Fields.after (f : Fields) (s : Segment) : Fields :=
  ⟨s.generatedColumn.toNat, s.source.toNat, s.originalLine.toNat, s.originalColumn.toNat,
    match s.name with
    | some name => name.toNat
    | none => f.name⟩

/-- One segment, written as differences. -/
def encodeSegment (f : Fields) (s : Segment) : List Char :=
  let g := f.after s
  encodeQuantity (g.generatedColumn - f.generatedColumn) ++ encodeQuantity (g.source - f.source) ++
    encodeQuantity (g.originalLine - f.originalLine) ++
    encodeQuantity (g.originalColumn - f.originalColumn) ++
    if s.name.isSome then encodeQuantity (g.name - f.name) else []

/-- The segments of one line and the fields after them. -/
def encodeLine (f : Fields) : List Segment → List Char × Fields
  | [] => ([], f)
  | [s] => (encodeSegment f s, f.after s)
  | s :: t :: r =>
    let (more, last) := encodeLine (f.after s) (t :: r)
    (encodeSegment f s ++ ',' :: more, last)

/-- Lines, each of which starts its generated columns at zero. -/
def encodeLines (f : Fields) : List (List Segment) → List Char
  | [] => []
  | [l] => (encodeLine { f with generatedColumn := 0 } l).1
  | l :: m :: r =>
    let (text, last) := encodeLine { f with generatedColumn := 0 } l
    text ++ ';' :: encodeLines last (m :: r)

/-- The mappings text of a map. -/
def mappings (m : SourceMap) : String := String.ofList (encodeLines {} m.lines)

/-- The low 32 bits of a number. -/
def word32 (n : Int) : UInt32 := (n.emod (Nat.pow 2 32)).toNat.toUInt32

/-- Move on by the differences of a segment. A segment of one field maps nothing. -/
def Fields.step (f : Fields) (offset : Nat) :
    List Int → Except MappingsFault (Fields × Option Segment)
  | [_] => .ok (f, none)
  | [a, b, c, d] =>
    let g : Fields := ⟨f.generatedColumn + a, f.source + b, f.originalLine + c,
      f.originalColumn + d, f.name⟩
    .ok (g, some ⟨word32 g.generatedColumn, word32 g.source, word32 g.originalLine,
      word32 g.originalColumn, none⟩)
  | [a, b, c, d, e] =>
    let g : Fields := ⟨f.generatedColumn + a, f.source + b, f.originalLine + c,
      f.originalColumn + d, f.name + e⟩
    .ok (g, some ⟨word32 g.generatedColumn, word32 g.source, word32 g.originalLine,
      word32 g.originalColumn, some (word32 g.name)⟩)
  | _ => .error ⟨offset, "segment must have 1, 4 or 5 fields"⟩

/-- Read the segments of a line. An offset counts one more for every segment read. -/
def decodeLine (f : Fields) (offset : Nat) (line : List Segment) :
    List (List Char) → Except MappingsFault (Fields × Nat × List Segment)
  | [] => .ok (f, offset, line)
  | field :: r => do
    let values ← decodeQuantities offset 0 0 field
    let offset := offset + field.length + 1
    let (f, segment?) ← f.step offset values
    decodeLine f offset ((segment?.map (insertSegment · line)).getD line) r

/-- Read lines. -/
def decodeLines (f : Fields) (offset : Nat) :
    List (List Char) → Except MappingsFault (List (List Segment))
  | [] => .ok []
  | group :: r => do
    let fields := (Text.splitAt ',' group).filter (!·.isEmpty)
    let (f, offset, line) ← decodeLine { f with generatedColumn := 0 } offset [] fields
    let more ← decodeLines f (offset + 1) r
    return line :: more

/-- The lines of a mappings text. -/
def linesOf (mappings : String) : Except MappingsFault (List (List Segment)) :=
  decodeLines {} 0 (Text.splitAt ';' mappings.toList)

end ScriptModules.SourceMap

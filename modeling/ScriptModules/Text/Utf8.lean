/-!
# UTF-8

Bytes as text. Where bytes are not well formed, strict decoding fails and lossy decoding writes
one replacement character for each longest piece that starts like a character.
-/

namespace ScriptModules.Text

/-- The bytes of some text. -/
def utf8 (cs : List Char) : List UInt8 := cs.flatMap fun c => (String.singleton c).toUTF8.toList

/-- The range that the second byte of a character has to be in, how many bytes follow the first,
and the bits of the first. -/
def leadByte? (b : Nat) : Option (Nat × Nat × Nat × Nat) :=
  if 0xC2 ≤ b && b ≤ 0xDF then some (0x80, 0xBF, 1, b - 0xC0)
  else if b == 0xE0 then some (0xA0, 0xBF, 2, 0)
  else if b == 0xED then some (0x80, 0x9F, 2, 0xD)
  else if 0xE1 ≤ b && b ≤ 0xEF then some (0x80, 0xBF, 2, b - 0xE0)
  else if b == 0xF0 then some (0x90, 0xBF, 3, 0)
  else if b == 0xF4 then some (0x80, 0x8F, 3, 4)
  else if 0xF1 ≤ b && b ≤ 0xF3 then some (0x80, 0xBF, 3, b - 0xF0)
  else none

/-- Gather the continuation bytes of a character: how many there were and the bits so far. -/
def continuation (low high : Nat) : Nat → Nat → List UInt8 → Nat × Nat
  | 0, bits, _ => (0, bits)
  | _, bits, [] => (0, bits)
  | need + 1, bits, b :: r =>
    if low ≤ b.toNat && b.toNat ≤ high then
      let (count, bits) := continuation 0x80 0xBF need (bits * 64 + (b.toNat - 0x80)) r
      (count + 1, bits)
    else (0, bits)

/-- The character at the head of some bytes, if there is one, and how many bytes it or its broken
start takes. -/
def firstChar (b : UInt8) (r : List UInt8) : Option Char × Nat :=
  if b.toNat < 0x80 then (some (Char.ofNat b.toNat), 1)
  else
    match leadByte? b.toNat with
    | none => (none, 1)
    | some (low, high, need, bits) =>
      let (count, bits) := continuation low high need bits r
      (if count = need then some (Char.ofNat bits) else none, count + 1)

/-- The characters of some bytes, with nothing for each broken piece. At most `limit` pieces are
decoded. -/
def pieces : Nat → List UInt8 → List (Option Char)
  | 0, _ => []
  | _, [] => []
  | limit + 1, b :: r =>
    let (c?, n) := firstChar b r
    c? :: pieces limit ((b :: r).drop n)

/-- The text of well-formed bytes. -/
def decode? (bytes : List UInt8) : Option String :=
  let cs := pieces bytes.length bytes
  if cs.all Option.isSome then some (String.ofList (cs.filterMap id)) else none

/-- The text of any bytes. -/
def decodeLossy (bytes : List UInt8) : String :=
  String.ofList ((pieces bytes.length bytes).map fun c? => c?.getD (Char.ofNat 0xFFFD))

end ScriptModules.Text

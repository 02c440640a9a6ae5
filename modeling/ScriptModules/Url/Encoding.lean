import ScriptModules.Text.Utf8

/-!
# Percent encoding

Which characters are written as percent signs with two hexadecimal digits depends on the part of
the URL; characters outside ASCII always are.
-/

namespace ScriptModules.Url

/-- Control characters and everything outside ASCII. -/
def isControl (c : Char) : Bool := c.val.toNat < 0x20 || c.val.toNat ≥ 0x7F

/-- What is encoded in a fragment. -/
def isEncodedInFragment (c : Char) : Bool := isControl c || " \x22<>\x60".toList.contains c

/-- What is encoded in a query; special schemes encode single quotes too. -/
def isEncodedInQuery (special : Bool) (c : Char) : Bool :=
  isControl c || " \x22#<>".toList.contains c || (special && c == '\x27')

/-- What is encoded in a path. -/
def isEncodedInPath (c : Char) : Bool := isEncodedInFragment c || "#?\x7b\x7d".toList.contains c

/-- What is encoded in a segment made from a file name. -/
def isEncodedInName (c : Char) : Bool := isEncodedInPath c || "/%\\".toList.contains c

/-- What is encoded in a user name or password. -/
def isEncodedInUserInfo (c : Char) : Bool := isEncodedInPath c || "/:;=@[\\]^|".toList.contains c

/-- A hexadecimal digit in upper case. -/
private def upperDigit (n : Nat) : Char :=
  if n < 10 then Char.ofNat (0x30 + n) else Char.ofNat (0x37 + n)

/-- A byte as a percent sign with two digits. -/
def encodeByte (b : UInt8) : List Char :=
  ['%', upperDigit (b.toNat / 16), upperDigit (b.toNat % 16)]

/-- Encode the characters that a part of a URL does not hold as they are. -/
def encode (isEncoded : Char → Bool) (cs : List Char) : List Char :=
  cs.flatMap fun c => if isEncoded c then (Text.utf8 [c]).flatMap encodeByte else [c]

/-- The value of a hexadecimal digit. -/
def hexDigit? (c : Char) : Option Nat :=
  if c.isDigit then some (c.toNat - 0x30)
  else if 'a' ≤ c && c ≤ 'f' then some (c.toNat - 0x57)
  else if 'A' ≤ c && c ≤ 'F' then some (c.toNat - 0x37)
  else none

/-- The bytes of a text in which percent signs with two digits stand for bytes. -/
def decode : List Char → List UInt8
  | [] => []
  | '%' :: a :: b :: r =>
    match hexDigit? a, hexDigit? b with
    | some x, some y => (16 * x + y).toUInt8 :: decode r
    | _, _ => Text.utf8 ['%'] ++ decode (a :: b :: r)
  | c :: r => Text.utf8 [c] ++ decode r

end ScriptModules.Url

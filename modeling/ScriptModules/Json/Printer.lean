import ScriptModules.Json.Value
import ScriptModules.Number.Shortest

/-!
# Writing JSON

The compact form has no blanks. The indented form puts every item on a line of its own.
-/

namespace ScriptModules.Json

/-- The digit of a number below sixteen. -/
def hexDigit (n : Nat) : Char :=
  if n < 10 then Char.ofNat (0x30 + n) else Char.ofNat (0x57 + n)

/-- A character inside a quoted string. Control characters without a short escape are written
with four hexadecimal digits, all others as they are. -/
def escapeChar (c : Char) : List Char :=
  if c == '\x22' then ['\\', '\x22']
  else if c == '\\' then ['\\', '\\']
  else if c == '\n' then ['\\', 'n']
  else if c == '\r' then ['\\', 'r']
  else if c == '\t' then ['\\', 't']
  else if c.val.toNat == 8 then ['\\', 'b']
  else if c.val.toNat == 12 then ['\\', 'f']
  else if c.val.toNat < 0x20 then
    ['\\', 'u', '0', '0', hexDigit (c.val.toNat / 16), hexDigit (c.val.toNat % 16)]
  else [c]

/-- A quoted string. -/
def quote (s : String) : List Char := '\x22' :: (s.toList.flatMap escapeChar ++ ['\x22'])

/-- The text of a number. -/
def Number.text : Number → String
  | natural n => toString n
  | negative n => "-" ++ toString n
  | float x => x.text

namespace Value

mutual

/-- A value without blanks. -/
def chars : Value → List Char
  | null => "null".toList
  | bool true => "true".toList
  | bool false => "false".toList
  | number n => n.text.toList
  | string s => quote s
  | array items => '[' :: (itemChars items ++ [']'])
  | object members => '\x7b' :: (memberChars members ++ ['\x7d'])

/-- Items with commas between them. -/
def itemChars : List Value → List Char
  | [] => []
  | [v] => chars v
  | v :: w :: r => chars v ++ ',' :: itemChars (w :: r)

/-- Members with commas between them. -/
def memberChars : List (String × Value) → List Char
  | [] => []
  | [(k, v)] => quote k ++ ':' :: chars v
  | (k, v) :: m :: r => quote k ++ ':' :: (chars v ++ ',' :: memberChars (m :: r))

end

/-- The compact text of a value. -/
def compact (v : Value) : String := String.ofList v.chars

/-- A new line with the blanks of a depth. -/
private def lineAt (depth : Nat) : List Char := '\n' :: List.replicate (2 * depth) ' '

mutual

/-- A value that stands at a depth. -/
def indentedChars (depth : Nat) : Value → List Char
  | array [] => ['[', ']']
  | object [] => ['\x7b', '\x7d']
  | array (v :: vs) =>
    '[' :: (lineAt (depth + 1) ++ indentedChars (depth + 1) v ++
      indentedItems (depth + 1) vs ++ lineAt depth ++ [']'])
  | object ((k, v) :: ms) =>
    '\x7b' :: (lineAt (depth + 1) ++ quote k ++ ": ".toList ++ indentedChars (depth + 1) v ++
      indentedMembers (depth + 1) ms ++ lineAt depth ++ ['\x7d'])
  | null => "null".toList
  | bool true => "true".toList
  | bool false => "false".toList
  | number n => n.text.toList
  | string s => quote s

/-- Further items, each after a comma and on its own line. -/
def indentedItems (depth : Nat) : List Value → List Char
  | [] => []
  | v :: r => ',' :: (lineAt depth ++ indentedChars depth v ++ indentedItems depth r)

/-- Further members, each after a comma and on its own line. -/
def indentedMembers (depth : Nat) : List (String × Value) → List Char
  | [] => []
  | (k, v) :: r =>
    ',' :: (lineAt depth ++ quote k ++ ": ".toList ++ indentedChars depth v ++
      indentedMembers depth r)

end

/-- The text of a value with two blanks of indentation per level. -/
def indented (v : Value) : String := String.ofList (v.indentedChars 0)

end Value

end ScriptModules.Json

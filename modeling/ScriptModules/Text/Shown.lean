/-!
# Text in messages

Text from outside is shown in quotes. Quotes, backslashes, control characters and characters
without a shape of their own are escaped.
-/

namespace ScriptModules.Text

/-- Characters that combine with the one before them; they are shown by their code. -/
private def isCombining (n : Nat) : Bool :=
  (0x300 ≤ n && n ≤ 0x36F) || (0x483 ≤ n && n ≤ 0x489) || (0x591 ≤ n && n ≤ 0x5BD) ||
  (0x610 ≤ n && n ≤ 0x61A) || (0x64B ≤ n && n ≤ 0x65F) || n == 0x200C ||
  (0x20D0 ≤ n && n ≤ 0x20F0) || (0x302A ≤ n && n ≤ 0x302F) || n == 0x3099 || n == 0x309A ||
  (0xFE00 ≤ n && n ≤ 0xFE0F) || (0xFE20 ≤ n && n ≤ 0xFE2F) || n == 0xFF9E || n == 0xFF9F ||
  (0x1F3FB ≤ n && n ≤ 0x1F3FF) || (0xE0020 ≤ n && n ≤ 0xE007F) || (0xE0100 ≤ n && n ≤ 0xE01EF)

/-- Characters without a shape of their own; they are shown by their code. -/
private def isInvisible (n : Nat) : Bool :=
  n < 0x20 || (0x7F ≤ n && n ≤ 0xA0) || n == 0xAD || n == 0x1680 || n == 0x180E ||
  (0x2000 ≤ n && n ≤ 0x200F) || (0x2028 ≤ n && n ≤ 0x202F) || (0x205F ≤ n && n ≤ 0x206F) ||
  n == 0x3000 || n == 0xFEFF || (0xE000 ≤ n && n ≤ 0xF8FF) || (0xFFF0 ≤ n && n ≤ 0xFFFB) ||
  n == 0xFFFE || n == 0xFFFF || n ≥ 0xE01F0

/-- A character as it is shown between the given quotes. -/
private def showChar (mark c : Char) : List Char :=
  let n := c.val.toNat
  if c == mark || c == '\\' then ['\\', c]
  else if c == '\n' then ['\\', 'n']
  else if c == '\r' then ['\\', 'r']
  else if c == '\t' then ['\\', 't']
  else if n == 0 then ['\\', '0']
  else if isInvisible n || isCombining n then
    ['\\', 'u', '\x7b'] ++ Nat.toDigits 16 n ++ ['\x7d']
  else [c]

/-- A text as it is shown in messages, in quotes and with escapes. -/
def showText (s : String) : String :=
  String.ofList ('\x22' :: (s.toList.flatMap (showChar '\x22') ++ ['\x22']))

/-- A character as it is shown in messages, in single quotes and with escapes. -/
def showQuoted (c : Char) : String :=
  String.ofList ('\x27' :: (showChar '\x27' c ++ ['\x27']))

end ScriptModules.Text

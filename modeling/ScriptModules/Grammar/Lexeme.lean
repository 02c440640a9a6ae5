/-!
# Lexemes

How long each kind of token is at the head of a text. Every reader answers with a number of
characters, so that reading never invents text; a reader that does not apply answers `none`.
-/

namespace ScriptModules.Grammar.Lexeme

/-- Characters that may stand between any two tokens. -/
def isBlank (c : Char) : Bool :=
  let n := c.val.toNat
  (9 ≤ n && n ≤ 13) || n == 0x20 || n == 0xA0 || n == 0x1680 || (0x2000 ≤ n && n ≤ 0x200B) ||
    n == 0x2028 || n == 0x2029 || n == 0x202F || n == 0x205F || n == 0x2060 || n == 0x3000 ||
    n == 0xFEFF

/-- The ASCII blanks, the only ones that the rule for line ends looks past. -/
def isAsciiBlank (c : Char) : Bool :=
  let n := c.val.toNat
  (9 ≤ n && n ≤ 13) || n == 0x20

/-- The marks that end a word. -/
def wordBreaks : List Char := ":;`\"'@#.,|^&<=>+-*/\\%?!~()[]\x7b\x7d".toList

/-- A word may hold any character but blanks, control characters and marks. -/
def isWordChar (c : Char) : Bool := !(isBlank c || c.val.toNat < 0x20 || wordBreaks.contains c)

/-- Hexadecimal digits in either case. -/
def isHexDigit (c : Char) : Bool :=
  c.isDigit || ('a' ≤ c && c ≤ 'f') || ('A' ≤ c && c ≤ 'F')

/-- The length of a word escape, `\uXXXX` or `\u` with braced digits. -/
def wordEscape? : List Char → Option Nat
  | '\\' :: 'u' :: '\x7b' :: r =>
    let digits := (r.takeWhile isHexDigit).length
    if 0 < digits && r[digits]? == some '\x7d' then some (digits + 4) else none
  | '\\' :: 'u' :: a :: b :: c :: d :: _ =>
    if isHexDigit a && isHexDigit b && isHexDigit c && isHexDigit d then some 6 else none
  | _ => none

/-- The length of the run of word characters and escapes at the head, of which the first `inner`
characters belong to an escape that has begun. -/
def wordTail (inner : Nat) : List Char → Nat
  | [] => 0
  | c :: r =>
    match inner with
    | n + 1 => wordTail n r + 1
    | 0 =>
      if isWordChar c then wordTail 0 r + 1
      else match wordEscape? (c :: r) with
        | some n => wordTail (n - 1) r + 1
        | none => 0

/-- A word starts with anything that may stand in it but an ASCII digit. -/
def word? (cs : List Char) : Option Nat :=
  match cs with
  | [] => none
  | c :: _ =>
    if c.isDigit then none
    else match wordTail 0 cs with
      | 0 => none
      | n => some n

/-- A private name is a word after a hash. -/
def privateName? : List Char → Option Nat
  | '#' :: r => (word? r).map (· + 1)
  | _ => none

/-- The length of a run of digits in which single underscores may separate digits. -/
def digitRun (p : Char → Bool) : List Char → Nat
  | [] => 0
  | c :: '_' :: d :: r => if p c then (if p d then digitRun p (d :: r) + 2 else 1) else 0
  | c :: r => if p c then digitRun p r + 1 else 0

/-- The number literals with a base letter: the length of the letter's digits. -/
def basedRun? : List Char → Option Nat
  | '0' :: x :: r =>
    let p : Option (Char → Bool) :=
      if x == 'x' || x == 'X' then some isHexDigit
      else if x == 'b' || x == 'B' then some fun c => c == '0' || c == '1'
      else if x == 'o' || x == 'O' then some fun c => '0' ≤ c && c ≤ '7'
      else none
    match p.map (digitRun · r) with
    | none | some 0 => none
    | some n => some (n + 2)
  | _ => none

/-- A decimal integer before a point or an exponent: `0`, or digits that start with 1 to 9
after an optional zero. -/
def integerPart? : List Char → Option Nat
  | '0' :: r =>
    match r with
    | c :: _ => if '1' ≤ c && c ≤ '9' then some (digitRun Char.isDigit r + 1) else some 1
    | [] => some 1
  | cs => match digitRun Char.isDigit cs with
    | 0 => none
    | n => some n

/-- The length of an exponent, 0 when there is none. -/
def exponentRun : List Char → Nat
  | e :: r =>
    if e == 'e' || e == 'E' then
      let sign := match r with
        | c :: _ => if c == '+' || c == '-' then 1 else 0
        | [] => 0
      match digitRun Char.isDigit (r.drop sign) with
      | 0 => 0
      | n => n + sign + 1
    else 0
  | [] => 0

/-- A number literal takes the longest text that any of its forms allows. -/
def number? (cs : List Char) : Option Nat :=
  let withBigMark (n : Nat) : Nat := if cs[n]? == some 'n' then n + 1 else n
  let based := (basedRun? cs).map withBigMark
  let plain := match digitRun Char.isDigit cs with
    | 0 => none
    | n => some (withBigMark n)
  let pointed := match integerPart? cs with
    | none => none
    | some n =>
      if cs[n]? == some '.' then
        let m := n + 1 + digitRun Char.isDigit (cs.drop (n + 1))
        some (m + exponentRun (cs.drop m))
      else match exponentRun (cs.drop n) with
        | 0 => none
        | e => some (n + e)
  let fraction := match cs with
    | '.' :: r => match digitRun Char.isDigit r with
      | 0 => none
      | n => some (n + 1 + exponentRun (r.drop n))
    | _ => none
  [based, plain, pointed, fraction].foldl (fun best length =>
    match best, length with
    | some a, some b => some (max a b)
    | a, none => a
    | none, b => b) none

/-- The length of an escape inside a string or template. -/
def escape? : List Char → Option Nat
  | '\\' :: c :: r =>
    if c == 'x' then
      match r with
      | a :: b :: _ => if isHexDigit a && isHexDigit b then some 4 else none
      | _ => none
    else if c == 'u' then wordEscape? ('\\' :: c :: r)
    else if '0' ≤ c && c ≤ '7' then
      some (((c :: r).take 3).takeWhile (fun d => '0' ≤ d && d ≤ '7')).length.succ
    else if (c == '\r' || c == '?') &&
        r.head?.any (fun d => d == '\n' || d == '\u2028' || d == '\u2029') then some 3
    else some 2
  | _ => none

/-- The length of what remains of a string after its opening quote, the closing quote included.
The first `inner` characters belong to an escape that has begun. A line break is allowed only
where nothing but blanks follows it before the closing quote. -/
def stringTail? (quote : Char) (inner : Nat) : List Char → Option Nat
  | [] => none
  | c :: r =>
    match inner with
    | n + 1 => (stringTail? quote n r).map (· + 1)
    | 0 =>
      if c == quote then some 1
      else if c == '\\' then
        match escape? (c :: r) with
        | some n => (stringTail? quote (n - 1) r).map (· + 1)
        | none => none
      else if c == '\n' || c == '\r' then
        let gap := (r.takeWhile isBlank).length
        if r[gap]? == some quote then some (gap + 2) else none
      else (stringTail? quote 0 r).map (· + 1)

/-- Strings stand in single or double quotes. -/
def isQuote (c : Char) : Bool := c == '\x22' || c == '\x27'

/-- A string literal in single or double quotes. -/
def string? : List Char → Option Nat
  | c :: r => if isQuote c then (stringTail? c 0 r).map (· + 1) else none
  | [] => none

/-- The length of the text of a template up to an escape, a substitution or its end. -/
def templateText : List Char → Nat
  | [] => 0
  | '$' :: '\x7b' :: _ => 0
  | c :: r => if c == '\x60' || c == '\\' then 0 else templateText r + 1

/-- Template text is never empty. -/
def templateText? (cs : List Char) : Option Nat :=
  match templateText cs with
  | 0 => none
  | n => if (cs.drop n).isEmpty then none else some n

/-- The length of a character class in a pattern after its opening bracket. -/
private def patternClass? : List Char → Option Nat
  | [] => none
  | ']' :: _ => some 1
  | '\\' :: c :: r => if c == '\n' then none else (patternClass? r).map (· + 2)
  | c :: r => if c == '\n' || c == '\\' then none else (patternClass? r).map (· + 1)

/-- The length of a pattern and its closing slash, of which the first `inner` characters belong to
an escape or a class that has begun. -/
private def patternTail? (inner : Nat) : List Char → Option Nat
  | [] => none
  | c :: r =>
    match inner with
    | n + 1 => (patternTail? n r).map (· + 1)
    | 0 =>
      if c == '/' then some 1
      else if c == '\n' then none
      else if c == '[' then
        match patternClass? r with
        | some n => (patternTail? n r).map (· + 1)
        | none => none
      else if c == '\\' then
        if r.head?.all (· == '\n') then none else (patternTail? 1 r).map (· + 1)
      else (patternTail? 0 r).map (· + 1)

/-- A regular expression: a pattern of at least one piece between slashes, then flags. -/
def regex? : List Char → Option Nat
  | '/' :: r =>
    if r.head? == some '/' then none
    else (patternTail? 0 r).map fun n =>
      n + 1 + ((r.drop n).takeWhile fun c => 'a' ≤ c && c ≤ 'z').length
  | _ => none

/-- The length of a block comment after its opening, if it is closed. -/
private def blockTail? : List Char → Option Nat
  | [] => none
  | '*' :: '/' :: _ => some 2
  | _ :: r => (blockTail? r).map (· + 1)

/-- A line comment stops before the end of its line; a block comment has to be closed. -/
def comment? : List Char → Option Nat
  | '/' :: '/' :: r =>
    let ends (c : Char) : Bool := c == '\n' || c == '\r' || c == '\u2028' || c == '\u2029'
    some ((r.takeWhile (!ends ·)).length + 2)
  | '/' :: '*' :: r => (blockTail? r).map (· + 2)
  | _ => none

/-- Where a statement may start, the marks that open and close a comment in markup start a comment
up to the end of the line. -/
def markupComment? (cs : List Char) : Option Nat :=
  let isInLine (c : Char) : Bool := c != '\n' && c != '\u2028' && c != '\u2029' && c.val != 0
  let rest (n : Nat) : Nat := ((cs.drop n).takeWhile isInLine).length
  if "<!--".toList.isPrefixOf cs then some (4 + rest 4)
  else if "-->".toList.isPrefixOf cs then some (3 + rest 3)
  else none

/-- The first line of a program that names its interpreter. -/
def hashbang? : List Char → Option Nat
  | '#' :: '!' :: r => some ((r.takeWhile (· != '\n')).length + 2)
  | _ => none

/-- Whether the head of the text spells the mark and none of the longer marks. -/
def mark? (text : String) (longer : List String) (cs : List Char) : Option Nat :=
  if text.toList.isPrefixOf cs && !longer.any (fun l => l.toList.isPrefixOf cs)
  then some text.length else none

/-- A keyword is a whole word spelled as given. -/
def keyword? (text : String) (cs : List Char) : Option Nat :=
  (word? cs).bind fun n => if cs.take n == text.toList then some n else none

/-- A name is a word outside the given list of words. -/
def name? (reserved : List String) (cs : List Char) : Option Nat :=
  (word? cs).bind fun n => if reserved.any (fun w => cs.take n == w.toList) then none else some n

/-- A markup name with a hyphen. -/
def hyphenName? (cs : List Char) : Option Nat :=
  match cs with
  | [] => none
  | c :: _ =>
    if c.isAlpha || c == '_' || c == '$' then
      let plain := (cs.takeWhile fun d => d.isAlphanum || d == '_' || d == '$').length
      if cs[plain]? == some '-' then
        some (cs.takeWhile fun d => d.isAlphanum || d == '_' || d == '$' || d == '-').length
      else none
    else none

/-- Markup text runs to the next mark of markup. It counts only if some of it is neither a line
break nor the blanks that follow one. -/
def markupText? (cs : List Char) : Option Nat :=
  let text := cs.takeWhile fun c =>
    c != '<' && c != '>' && c != '\x7b' && c != '\x7d' && c != '&' && c.val != 0
  let seen := text.foldl (fun (s : Bool × Bool) c =>
    if c == '\n' then (true, s.2)
    else
      let atBreak := s.1 && isAsciiBlank c
      (atBreak, s.2 || !atBreak)) (false, false)
  if seen.2 then some text.length else none

/-- A character reference such as `&amp;` or `&#160;`. -/
def characterReference? : List Char → Option Nat
  | '&' :: '#' :: x :: r =>
    let body := if x == 'x' || x == 'X' then (r.takeWhile isHexDigit).length
      else ((x :: r).takeWhile Char.isDigit).length
    let limit := if x == 'x' || x == 'X' then 6 else 5
    let start := if x == 'x' || x == 'X' then 3 else 2
    if 0 < body && body ≤ limit && ((x :: r).drop (body + start - 2)).head? == some ';'
    then some (body + start + 1) else none
  | '&' :: r =>
    let body := (r.takeWhile Char.isAlpha).length
    if 0 < body && body ≤ 30 && r[body]? == some ';' then some (body + 2) else none
  | _ => none

/-- A quoted attribute value in markup has no escapes; it runs to the same quote. -/
def markupString? : List Char → Option Nat
  | c :: r =>
    if isQuote c then
      let body := (r.takeWhile (· != c)).length
      if body < r.length then some (body + 2) else none
    else none
  | [] => none

end ScriptModules.Grammar.Lexeme

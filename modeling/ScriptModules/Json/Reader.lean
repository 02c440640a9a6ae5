import ScriptModules.Json.Fault

/-!
# Reading JSON

A reader answers with what it read and the place after it, or with the first fault. Values may
be kept or only skimmed: a skimmed value is checked less strictly, nests without limit and comes
out empty where its content would need more care.
-/

namespace ScriptModules.Json

/-- A place in a document: what remains, the line, and the bytes read on that line. -/
structure Place where
  rest : List Char
  line : Nat
  column : Nat
  deriving DecidableEq, Repr

namespace Place

/-- The start of a document. -/
def ofText (s : String) : Place := ⟨s.toList, 1, 0⟩

/-- The place after one character. -/
def next : Place → Place
  | ⟨[], line, column⟩ => ⟨[], line, column⟩
  | ⟨c :: r, line, column⟩ =>
    if c == '\n' then ⟨r, line + 1, 0⟩ else ⟨r, line, column + c.utf8Size⟩

/-- Step over the blanks of JSON. -/
def skipBlanks (p : Place) : Place :=
  match p with
  | ⟨[], _, _⟩ => p
  | ⟨c :: r, line, column⟩ =>
    if c == '\n' then skipBlanks ⟨r, line + 1, 0⟩
    else if c == ' ' || c == '\t' || c == '\r' then skipBlanks ⟨r, line, column + 1⟩
    else p
termination_by p.rest.length

/-- Step over the digits ahead. -/
def skipDigits (p : Place) : Place :=
  let n := (p.rest.takeWhile Char.isDigit).length
  ⟨p.rest.drop n, p.line, p.column + n⟩

/-- A fault that is noticed after what was read. -/
def fault (p : Place) (cause : Cause) : Fault := ⟨cause, p.line, p.column⟩

/-- The line and column after at most `n` more bytes. -/
def afterBytes : Nat → Place → Nat × Nat
  | 0, p => (p.line, p.column)
  | n + 1, p =>
    match p.rest with
    | [] => (p.line, p.column)
    | c :: _ =>
      if n + 1 < c.utf8Size then (p.line, p.column + n + 1)
      else afterBytes (n + 1 - c.utf8Size) p.next
termination_by n => n
decreasing_by
  have := Char.utf8Size_pos c
  omega

/-- A fault that is noticed after the next byte. -/
def faultAhead (p : Place) (cause : Cause) : Fault :=
  let (line, column) := p.afterBytes 1
  ⟨cause, line, column⟩

end Place

/-- Whether the content of a value is wanted. -/
inductive Care where
  | keep
  | skim
  deriving DecidableEq, Repr

/-- Read the rest of a word. -/
def readWord : List Char → Place → Except Fault Place
  | [], p => .ok p
  | c :: cs, p =>
    match p.rest with
    | [] => .error (p.fault .endInValue)
    | x :: _ => if x == c then readWord cs p.next else .error (p.faultAhead .expectedWord)

/-- The largest integer that is kept exactly. -/
def maxInteger : Nat := Nat.pow 2 64 - 1

/-- Append decimal digits to a number for as long as it stays in range, and count the digits that
were taken. -/
def takeDigits (n : Nat) : List Char → Nat × Nat
  | [] => (n, 0)
  | c :: r =>
    let m := 10 * n + (c.toNat - '0'.toNat)
    if m ≤ maxInteger then
      let (last, count) := takeDigits m r
      (last, count + 1)
    else (n, 0)

/-- A power of ten as a double. -/
private def powerOfTen (k : Nat) : Number.Binary64 :=
  (Number.Binary64.ofRatio? false (Nat.pow 10 k) 1).getD (.zero false)

/-- Divide by a power of ten, in steps of at most 10^308. -/
private def divideByPower : Nat → Number.Binary64 → Nat → Number.Binary64
  | 0, x, _ => x
  | fuel + 1, x, k =>
    if k ≤ 308 then (x.div? (powerOfTen k)).getD x
    else if x.isZero then x
    else divideByPower fuel ((x.div? (powerOfTen 308)).getD x) (k - 308)

/-- A number given by its digits and a power of ten, rounded once when the digits become a double
and once more when the power is applied. There is none when it is too large. -/
def scaled? (significand : Nat) (exponent : Int) : Option Number.Binary64 :=
  match Number.Binary64.ofRatio? false significand 1 with
  | none => none
  | some x =>
    if exponent < 0 then some (divideByPower 6 x exponent.natAbs)
    else if x.isZero then some x
    else if exponent ≤ 308 then x.mul? (powerOfTen exponent.toNat)
    else none

/-- A double with a sign, from its digits and a power of ten; `p` is the place after it. -/
def finishFloat (negative : Bool) (significand : Nat) (exponent : Int) (p : Place) :
    Except Fault (Number × Place) :=
  match scaled? significand exponent with
  | some x => .ok (.float (x.withSign negative), p)
  | none => .error (p.fault .numberOutOfRange)

/-- The value of decimal digits. -/
def digitsValue (ds : List Char) : Nat := ds.foldl (fun n d => 10 * n + (d.toNat - '0'.toNat)) 0

/-- Step over the sign of an exponent, and tell whether it is a minus. -/
def readSign (p : Place) : Bool × Place :=
  match p.rest with
  | '+' :: _ => (false, p.next)
  | '-' :: _ => (true, p.next)
  | _ => (false, p)

/-- Read the digits of an exponent, which adds to a power of ten or subtracts from it. An exponent
of more than 31 bits makes zero or an overflow. -/
def readPower (negative : Bool) (significand : Nat) (exponent : Int) (down : Bool) (p : Place) :
    Except Fault (Number × Place) :=
  match p.rest with
  | [] => .error (p.fault .endInValue)
  | c :: _ =>
    if !c.isDigit then .error (p.faultAhead .invalidNumber)
    else
      let digits := p.rest.takeWhile Char.isDigit
      let value := digitsValue digits
      if value < Nat.pow 2 31 then
        finishFloat negative significand (if down then exponent - value else exponent + value)
          p.skipDigits
      else if significand != 0 && !down then
        let leading := (digits.foldl (fun (n, count) d =>
          if n < Nat.pow 2 31 then (10 * n + (d.toNat - '0'.toNat), count + 1) else (n, count))
          ((0, 0) : Nat × Nat)).2
        .error ⟨.numberOutOfRange, p.line, p.column + leading⟩
      else .ok (.float (.zero negative), p.skipDigits)

/-- Read an exponent, after its letter. -/
def readExponent (negative : Bool) (significand : Nat) (exponent : Int) (p : Place) :
    Except Fault (Number × Place) :=
  let (down, p) := readSign p
  readPower negative significand exponent down p

/-- Read the exponent of a number if there is one, and else finish without. -/
def readRaised (negative : Bool) (significand : Nat) (exponent : Int) (p : Place)
    (finish : Except Fault (Number × Place)) : Except Fault (Number × Place) :=
  match p.rest with
  | 'e' :: _ | 'E' :: _ => readExponent negative significand exponent p.next
  | _ => finish

/-- Read the digits after a decimal point; digits beyond the range of an integer are dropped. -/
def readFraction (negative : Bool) (significand : Nat) (dropped : Nat) (p : Place) :
    Except Fault (Number × Place) :=
  let digits := p.rest.takeWhile Char.isDigit
  if digits.isEmpty then
    if p.rest.isEmpty then .error (p.faultAhead .endInValue)
    else .error (p.faultAhead .invalidNumber)
  else
    let (significand, count) := takeDigits significand digits
    let p := p.skipDigits
    let exponent : Int := (dropped : Int) - count
    readRaised negative significand exponent p (finishFloat negative significand exponent p)

/-- An integer of the digits that were kept. One that does not fit 64 bits becomes a double. -/
def finishWhole (negative : Bool) (significand dropped : Nat) (p : Place) :
    Except Fault (Number × Place) :=
  if dropped != 0 then finishFloat negative significand dropped p
  else if !negative then .ok (.natural significand, p)
  else if significand != 0 && significand ≤ Nat.pow 2 63 then .ok (.negative significand, p)
  else finishFloat true significand 0 p

/-- Read a number, after its sign. -/
def readNumber (negative : Bool) (p : Place) : Except Fault (Number × Place) :=
  match p.rest with
  | [] => .error (p.fault .endInValue)
  | c :: r =>
    if !c.isDigit then .error (p.faultAhead .invalidNumber)
    else if c == '0' && r.head?.any Char.isDigit then .error (p.next.faultAhead .invalidNumber)
    else
      let digits := p.rest.takeWhile Char.isDigit
      let (significand, count) := takeDigits 0 digits
      let dropped := digits.length - count
      let p := p.skipDigits
      match p.rest with
      | '.' :: _ => readFraction negative significand dropped p.next
      | _ =>
        readRaised negative significand dropped p (finishWhole negative significand dropped p)

/-- Step over a number, after its sign. -/
def skimNumber (p : Place) : Except Fault Place :=
  let exponent (p : Place) : Except Fault Place :=
    let p := match p.rest with
      | '+' :: _ | '-' :: _ => p.next
      | _ => p
    match p.rest with
    | [] => .error (p.fault .invalidNumber)
    | c :: _ => if c.isDigit then .ok p.skipDigits else .error (p.faultAhead .invalidNumber)
  match p.rest with
  | [] => .error (p.fault .invalidNumber)
  | c :: r =>
    if !c.isDigit then .error (p.faultAhead .invalidNumber)
    else if c == '0' && r.head?.any Char.isDigit then .error (p.next.faultAhead .invalidNumber)
    else
      let p := p.skipDigits
      match p.rest with
      | '.' :: d :: _ =>
        if !d.isDigit then .error (p.next.faultAhead .invalidNumber)
        else
          let p := p.next.skipDigits
          match p.rest with
          | 'e' :: _ | 'E' :: _ => exponent p.next
          | _ => .ok p
      | '.' :: _ => .error (p.next.faultAhead .invalidNumber)
      | 'e' :: _ | 'E' :: _ => exponent p.next
      | _ => .ok p

/-- The value of a hexadecimal digit. -/
def hexValue? (c : Char) : Option Nat :=
  if c.isDigit then some (c.toNat - 0x30)
  else if 'a' ≤ c && c ≤ 'f' then some (c.toNat - 0x57)
  else if 'A' ≤ c && c ≤ 'F' then some (c.toNat - 0x37)
  else none

/-- Read the four digits of an escaped code unit. -/
def readUnit (p : Place) : Except Fault (Nat × Place) :=
  let bytes := (p.rest.take 4).foldr (fun c n => c.utf8Size + n) 0
  match p.rest with
  | a :: b :: c :: d :: r =>
    match hexValue? a, hexValue? b, hexValue? c, hexValue? d with
    | some a, some b, some c, some d =>
      .ok (a * 4096 + b * 256 + c * 16 + d, ⟨r, p.line, p.column + 4⟩)
    | _, _, _, _ =>
      let (line, column) := p.afterBytes 4
      .error ⟨.invalidEscape, line, column⟩
  | _ =>
    let (line, column) := p.afterBytes 4
    .error ⟨if bytes < 4 then .endInString else .invalidEscape, line, column⟩

/-- Step over a character that must stand between the two halves of a surrogate pair. -/
def readExpected (expected : Char) (p : Place) : Except Fault Place :=
  match p.rest with
  | [] => .error (p.fault .endInString)
  | c :: _ => if c == expected then .ok p.next else .error (p.faultAhead .endOfEscape)

/-- Read what follows a backslash and a `u`. Two surrogates make one character. -/
def readUnicode (care : Care) (p : Place) : Except Fault (List Char × Place) := do
  let (n, p) ← readUnit p
  if care == .skim then return ([], p)
  if 0xDC00 ≤ n && n ≤ 0xDFFF then throw (p.fault .loneSurrogate)
  if n < 0xD800 || n > 0xDBFF then return ([Char.ofNat n], p)
  let p ← readExpected '\\' p
  let p ← readExpected 'u' p
  let (m, p) ← readUnit p
  if m < 0xDC00 || m > 0xDFFF then throw (p.fault .loneSurrogate)
  return ([Char.ofNat ((n - 0xD800) * 0x400 + (m - 0xDC00) + 0x10000)], p)

/-- Read what follows a backslash. -/
def readEscape (care : Care) (p : Place) : Except Fault (List Char × Place) :=
  match p.rest with
  | [] => .error (p.fault .endInString)
  | c :: _ =>
    if c == '\x22' || c == '\\' || c == '/' then .ok ([c], p.next)
    else if c == 'b' then .ok ([Char.ofNat 8], p.next)
    else if c == 'f' then .ok ([Char.ofNat 12], p.next)
    else if c == 'n' then .ok (['\n'], p.next)
    else if c == 'r' then .ok (['\r'], p.next)
    else if c == 't' then .ok (['\t'], p.next)
    else if c == 'u' then readUnicode care p.next
    else .error (p.faultAhead .invalidEscape)

/-- Read the characters of a string up to its closing quote. -/
def readChars (care : Care) : Nat → Place → Except Fault (List Char × Place)
  | 0, p => .error (p.fault .endInString)
  | fuel + 1, p =>
    match p.rest with
    | [] => .error (p.fault .endInString)
    | c :: _ =>
      if c == '\x22' then .ok ([], p.next)
      else if c == '\\' then do
        let (cs, p) ← readEscape care p.next
        let (more, p) ← readChars care fuel p
        return (cs ++ more, p)
      else if c.val.toNat < 0x20 then .error (p.faultAhead .controlCharacter)
      else do
        let (more, p) ← readChars care fuel p.next
        return (c :: more, p)

/-- Read a string, after its opening quote. -/
def readText (care : Care) (p : Place) : Except Fault (String × Place) :=
  (readChars care (p.rest.length + 1) p).map fun (cs, p) => (String.ofList cs, p)

/-- Where the next item of an array starts, or where its closing bracket stands. -/
inductive NextItem where
  | item (p : Place)
  | close (p : Place)

/-- Look for the next item of an array. -/
def nextItem (care : Care) (first : Bool) (p : Place) : Except Fault NextItem :=
  let p := p.skipBlanks
  match p.rest with
  | [] => .error (p.faultAhead .endInList)
  | c :: _ =>
    if c == ']' then .ok (.close p)
    else if first then .ok (.item p)
    else if c == ',' then
      let q := p.next.skipBlanks
      match q.rest with
      | [] => .error (q.faultAhead .endInValue)
      | d :: _ =>
        if d == ']' then
          .error (q.faultAhead (if care == .keep then .trailingComma else .expectedValue))
        else .ok (.item q)
    else .error (p.faultAhead .expectedListComma)

/-- Read the items of an array up to its closing bracket. -/
def readItems {α : Type} (care : Care) (item : Place → Except Fault (α × Place)) :
    Nat → Bool → Place → Except Fault (List α × Place)
  | 0, _, p => .error (p.fault .endInList)
  | fuel + 1, first, p => do
    match ← nextItem care first p with
    | .close p => return ([], p.next)
    | .item p =>
      let (x, p) ← item p
      let (xs, p) ← readItems care item fuel false p
      return (x :: xs, p)

/-- Step over the colon after a key. -/
def readColon (p : Place) : Except Fault Place :=
  let p := p.skipBlanks
  match p.rest with
  | [] => .error (p.faultAhead .endInObject)
  | c :: _ => if c == ':' then .ok p.next else .error (p.faultAhead .expectedColon)

/-- Read the members of an object up to its closing brace. The step is given what was gathered so
far, a key, and the place after the key. -/
def readMembers {σ : Type} (care : Care) (step : σ → String → Place → Except Fault (σ × Place)) :
    Nat → Bool → σ → Place → Except Fault (σ × Place)
  | 0, _, _, p => .error (p.fault .endInObject)
  | fuel + 1, first, s, p =>
    let p := p.skipBlanks
    let more (p : Place) : Except Fault (σ × Place) := do
      let (key, p) ← readText care p.next
      let (s, p) ← step s key p
      readMembers care step fuel false s p
    match p.rest with
    | [] => .error (p.faultAhead .endInObject)
    | c :: _ =>
      if c == '\x7d' then .ok (s, p.next)
      else if first then
        if c == '\x22' then more p else .error (p.faultAhead .keyNotString)
      else if c == ',' then
        let q := p.next.skipBlanks
        match q.rest with
        | [] => .error (q.faultAhead (if care == .keep then .endInValue else .endInObject))
        | d :: _ =>
          if d == '\x22' then more q
          else if d == '\x7d' && care == .keep then .error (q.faultAhead .trailingComma)
          else .error (q.faultAhead .keyNotString)
      else .error (p.faultAhead .expectedObjectComma)

/-- Read a value. `depth` is how many more brackets may open inside one another, plus one. -/
def readValue (care : Care) : Nat → Place → Except Fault (Value × Place)
  | 0, p => .error (p.faultAhead .nestedTooDeep)
  | depth + 1, p =>
    let p := p.skipBlanks
    let word (cs : String) (v : Value) : Except Fault (Value × Place) :=
      (readWord cs.toList p.next).map fun p => (v, p)
    let number (negative : Bool) (p : Place) : Except Fault (Value × Place) :=
      match care with
      | .keep => (readNumber negative p).map fun (n, p) => (.number n, p)
      | .skim => (skimNumber p).map fun p => (.null, p)
    match p.rest with
    | [] => .error (p.faultAhead .endInValue)
    | c :: _ =>
      if c == 'n' then word "ull" .null
      else if c == 't' then word "rue" (.bool true)
      else if c == 'f' then word "alse" (.bool false)
      else if c == '-' then number true p.next
      else if c.isDigit then number false p
      else if c == '\x22' then (readText care p.next).map fun (s, p) => (.string s, p)
      else if c == '[' then
        if depth = 0 then .error (p.faultAhead .nestedTooDeep)
        else
          (readItems care (readValue care depth) (p.rest.length + 1) true p.next).map
            fun (items, p) => (.array items, p)
      else if c == '\x7b' then
        if depth = 0 then .error (p.faultAhead .nestedTooDeep)
        else
          let step (ms : Members) (key : String) (p : Place) : Except Fault (Members × Place) := do
            let p ← readColon p
            let (v, p) ← readValue care depth p
            return (ms.insert key v, p)
          (readMembers care step (p.rest.length + 1) true ([] : Members) p.next).map
            fun (ms, p) => (.object ms, p)
      else .error (p.faultAhead .expectedValue)

/-- How many brackets may open inside one another, plus one. -/
def depthLimit : Nat := 128

/-- Nothing but blanks may follow a document. -/
def readEnd (p : Place) : Except Fault Unit :=
  let p := p.skipBlanks
  if p.rest.isEmpty then .ok () else .error (p.faultAhead .trailingCharacters)

/-- Read a whole document. -/
def parse (s : String) : Except Fault Value := do
  let (v, p) ← readValue .keep depthLimit (Place.ofText s)
  readEnd p
  return v

end ScriptModules.Json

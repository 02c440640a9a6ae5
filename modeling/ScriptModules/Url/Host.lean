import ScriptModules.Text.Split
import ScriptModules.Url.Basic
import ScriptModules.Url.Encoding

/-!
# Hosts

Domains are compared without case and written in ASCII. A domain whose last label is a number is
an address.
-/

namespace ScriptModules.Url

/-- Why a text is no URL. -/
inductive Fault where
  | emptyHost
  | invalidDomain
  | invalidPort
  | invalidIpv4
  | invalidIpv6
  | invalidDomainCharacter
  | relativeWithoutBase
  | relativeWithPlainBase
  deriving DecidableEq, Repr

/-- The wording of a fault. -/
def Fault.text : Fault → String
  | emptyHost => "empty host"
  | invalidDomain => "invalid international domain name"
  | invalidPort => "invalid port number"
  | invalidIpv4 => "invalid IPv4 address"
  | invalidIpv6 => "invalid IPv6 address"
  | invalidDomainCharacter => "invalid domain character"
  | relativeWithoutBase => "relative URL without a base"
  | relativeWithPlainBase => "relative URL with a cannot-be-a-base base"

/-- The number that digits of a base make, if they all are digits. -/
def numberIn? (base : Nat) (cs : List Char) : Option Nat :=
  cs.foldl (fun n? c => do
    let n ← n?
    let d ← hexDigit? c
    if d < base then some (n * base + d) else none) (some 0)

/-- One number of an address, in decimal, octal or hexadecimal digits. -/
def ipv4Number? (cs : List Char) : Option Nat :=
  match cs with
  | [] => none
  | '0' :: 'x' :: r | '0' :: 'X' :: r => numberIn? 16 r
  | ['0'] => some 0
  | '0' :: r => numberIn? 8 r
  | _ => numberIn? 10 cs

/-- Whether the last label of a domain is a number. -/
def endsInNumber (domain : List Char) : Bool :=
  let labels := (Text.splitAt '.' domain).reverse
  let last? := match labels with
    | [] :: second :: _ => some second
    | [[]] => none
    | last :: _ => some last
    | [] => none
  match last? with
  | none => false
  | some last => (!last.isEmpty && last.all Char.isDigit) || (ipv4Number? last).isSome

/-- An address of up to four numbers, the last of which fills the remaining bytes. -/
def parseIpv4 (domain : List Char) : Except Fault Host :=
  let labels := Text.splitAt '.' domain
  let labels := if labels.getLast? == some [] then labels.dropLast else labels
  let numbers := labels.filterMap ipv4Number?
  if labels.length > 4 || numbers.length != labels.length then .error .invalidIpv4
  else
    match numbers.reverse with
    | [] => .error .invalidIpv4
    | last :: before =>
      if last ≥ Nat.pow 256 (4 - before.length) || before.any (· > 255) then .error .invalidIpv4
      else
        let above :=
          before.reverse.zipIdx.foldr (fun (n, i) rest => n * Nat.pow 256 (3 - i) + rest) 0
        .ok (.ipv4 (above + last))

/-- The groups between colons; the last two may be written as an address of four numbers. -/
private def groupsOf? (pieces : List (List Char)) : Option (List Nat) :=
  let group? (cs : List Char) : Option (List Nat) :=
    if cs.isEmpty || cs.length > 4 then none else (numberIn? 16 cs).map ([·])
  let decimal? (cs : List Char) : Option Nat :=
    if cs.isEmpty || (cs.length > 1 && cs.head? == some '0') then none
    else if cs.all Char.isDigit then (numberIn? 10 cs).filter (· ≤ 255)
    else none
  let quad? (cs : List Char) : Option (List Nat) := do
    match (← (Text.splitAt '.' cs).mapM decimal?) with
    | [a, b, c, d] => some [a * 256 + b, c * 256 + d]
    | _ => none
  pieces.zipIdx.foldl (fun acc? (piece, i) => do
    let acc ← acc?
    let groups ←
      if piece.contains '.' then (if i + 1 == pieces.length then quad? piece else none)
      else group? piece
    some (acc ++ groups)) (some [])

/-- Split at the first pair of colons. -/
private def splitAtPair : List Char → Option (List Char × List Char)
  | [] => none
  | ':' :: ':' :: r => some ([], r)
  | c :: r => (splitAtPair r).map fun (a, b) => (c :: a, b)

/-- An address of eight groups, in which one run of zeros may be left out. -/
def parseIpv6 (cs : List Char) : Except Fault Host :=
  let side? (cs : List Char) : Option (List Nat) :=
    if cs.isEmpty then some [] else groupsOf? (Text.splitAt ':' cs)
  let groups? : Option (List Nat) :=
    match splitAtPair cs with
    | none => (side? cs).filter (·.length == 8)
    | some (left, right) => do
      if left.contains '.' then none
      let a ← side? left
      let b ← side? right
      if a.length + b.length < 8 then
        some (a ++ List.replicate (8 - a.length - b.length) 0 ++ b)
      else none
  match groups? with
  | some groups => .ok (.ipv6 groups)
  | none => .error .invalidIpv6

/-- The characters of a domain without case: capital letters of the Latin, Greek and Cyrillic
scripts become small ones, wide forms become ASCII. -/
def foldChar (c : Char) : List Char :=
  let n := c.val.toNat
  let shift (k : Nat) : List Char := [Char.ofNat (n + k)]
  if 'A' ≤ c && c ≤ 'Z' then shift 32
  else if n < 0x80 then [c]
  else if n == 0xAD || n == 0x200B || n == 0x2060 || n == 0xFEFF then []
  else if 0xC0 ≤ n && n ≤ 0xDE && n != 0xD7 then shift 32
  else if 0x100 ≤ n && n ≤ 0x137 && n != 0x130 then if n % 2 == 0 then shift 1 else [c]
  else if 0x139 ≤ n && n ≤ 0x148 then if n % 2 == 1 then shift 1 else [c]
  else if 0x14A ≤ n && n ≤ 0x177 then if n % 2 == 0 then shift 1 else [c]
  else if 0x391 ≤ n && n ≤ 0x3A9 then shift 32
  else if 0x410 ≤ n && n ≤ 0x42F then shift 32
  else if 0x400 ≤ n && n ≤ 0x40F then shift 80
  else if n == 0x3002 || n == 0xFF0E || n == 0xFF61 then ['.']
  else if 0xFF01 ≤ n && n ≤ 0xFF5E then
    let ascii := n - 0xFEE0
    [Char.ofNat (if 0x41 ≤ ascii && ascii ≤ 0x5A then ascii + 32 else ascii)]
  else [c]

/-- The next bias of the encoding of labels. -/
private def adaptBias (delta points : Nat) (first : Bool) : Nat :=
  let delta := if first then delta / 700 else delta / 2
  let delta := delta + delta / points
  let rec halve : Nat → Nat → Nat → Nat × Nat
    | 0, delta, k => (delta, k)
    | fuel + 1, delta, k => if delta > 455 then halve fuel (delta / 35) (k + 36) else (delta, k)
  let (delta, k) := halve 64 delta 0
  k + 36 * delta / (delta + 38)

/-- The digits of a number of variable length in base 36. -/
private def labelDigits (bias : Nat) : Nat → Nat → Nat → List Char
  | 0, _, _ => []
  | fuel + 1, q, k =>
    let digit (d : Nat) : Char :=
      if d < 26 then Char.ofNat (0x61 + d) else Char.ofNat (0x30 + d - 26)
    let t := if k ≤ bias then 1 else if k ≥ bias + 26 then 26 else k - bias
    if q < t then [digit q]
    else digit (t + (q - t) % (36 - t)) :: labelDigits bias fuel ((q - t) / (36 - t)) (k + 36)

/-- The state of encoding a label: what was written, the difference, the bias, and how many
characters have been handled. -/
private structure LabelState where
  out : List Char
  delta : Nat
  bias : Nat
  handled : Nat

/-- Write every character of a code point, in the order of the label. -/
private def encodePoint (basic m : Nat) (label : List Nat) (s : LabelState) : LabelState :=
  label.foldl (fun s n =>
    if n < m then { s with delta := s.delta + 1 }
    else if n == m then
      { out := s.out ++ labelDigits s.bias 64 s.delta 36
        delta := 0
        bias := adaptBias s.delta (s.handled + 1) (s.handled == basic)
        handled := s.handled + 1 }
    else s) s

/-- Handle the code points of a label in rising order. -/
private def encodePoints (basic : Nat) (label : List Nat) : Nat → Nat → LabelState → List Char
  | 0, _, s => s.out
  | fuel + 1, n, s =>
    match (label.filter (n ≤ ·)).min? with
    | none => s.out
    | some m =>
      let s := { s with delta := s.delta + (m - n) * (s.handled + 1) }
      let s := encodePoint basic m label s
      encodePoints basic label fuel (m + 1) { s with delta := s.delta + 1 }

/-- A label in ASCII. -/
def asciiLabel (label : List Char) : List Char :=
  if label.all (·.val.toNat < 0x80) then label
  else
    let basic := label.filter (·.val.toNat < 0x80)
    let start := if basic.isEmpty then [] else basic ++ ['-']
    "xn--".toList ++ encodePoints basic.length (label.map (·.val.toNat)) label.length 0x80
      ⟨start, 0, 72, basic.length⟩

/-- ASCII characters that a domain cannot hold. -/
def isForbiddenInDomain (c : Char) : Bool :=
  c.val.toNat ≤ 0x20 || c.val.toNat == 0x7F || "%#/:<>?@[\\]^|".toList.contains c

/-- A domain in ASCII and without case. Its characters are folded one by one: a label is not brought
into a normal form first, and what is in ASCII already is not decoded to test it. -/
def asciiDomain? (bytes : List UInt8) : Option (List Char) := do
  let cs := (← Text.decode? bytes).toList.flatMap foldChar
  if cs.any isForbiddenInDomain then none
  let labels := (Text.splitAt '.' cs).map asciiLabel
  return ['.'].intercalate labels

/-- The host of a special scheme. -/
def parseHost (cs : List Char) : Except Fault Host :=
  match cs with
  | '[' :: r =>
    if r.getLast? == some ']' then parseIpv6 r.dropLast else .error .invalidIpv6
  | _ =>
    match asciiDomain? (decode cs) with
    | none => .error .invalidDomain
    | some domain =>
      if domain.isEmpty then .error .emptyHost
      else if endsInNumber domain then parseIpv4 domain
      else .ok (.domain (String.ofList domain))

/-- Characters that no host can hold. -/
def isForbiddenInHost (c : Char) : Bool :=
  c.val.toNat == 0 || " #/:<>?@[\\]^|".toList.contains c

/-- The host of a scheme that is not special; there may be none. -/
def parseForeignHost (cs : List Char) : Except Fault (Option Host) :=
  match cs with
  | [] => .ok none
  | '[' :: r =>
    if r.getLast? == some ']' then (parseIpv6 r.dropLast).map some else .error .invalidIpv6
  | _ =>
    if cs.any isForbiddenInHost then .error .invalidDomainCharacter
    else .ok (some (.domain (String.ofList (encode isControl cs))))

end ScriptModules.Url

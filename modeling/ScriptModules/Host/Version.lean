import ScriptModules.Text.Blank
import ScriptModules.Text.Shown
import ScriptModules.Text.Split

/-!
# Semantic versions

Three numbers, and optionally identifiers of a pre-release and of a build.
-/

namespace ScriptModules.Host

/-- A semantic version. -/
structure Version where
  major : Nat
  minor : Nat
  patch : Nat
  /-- The identifiers of a pre-release, with their dots. -/
  pre : String := ""
  build : String := ""
  deriving DecidableEq, Repr

namespace Version

/-- The text of a version. -/
def text (v : Version) : String :=
  toString v.major ++ "." ++ toString v.minor ++ "." ++ toString v.patch ++
    (if v.pre == "" then "" else "-" ++ v.pre) ++ (if v.build == "" then "" else "+" ++ v.build)

/-- The pieces of a version. -/
inductive Piece where
  | major
  | minor
  | patch
  | pre
  | build
  deriving DecidableEq, Repr

/-- The name of a piece in messages. -/
def Piece.text : Piece → String
  | major => "major version number"
  | minor => "minor version number"
  | patch => "patch version number"
  | pre => "pre-release identifier"
  | build => "build metadata"

/-- Why a text is no version. -/
inductive Fault where
  | empty
  | unexpectedEnd (piece : Piece)
  | unexpected (piece : Piece) (c : Char)
  | unexpectedAfter (piece : Piece) (c : Char)
  | leadingZero (piece : Piece)
  | tooLarge (piece : Piece)
  | emptySegment (piece : Piece)
  deriving DecidableEq, Repr

/-- The wording of a fault. -/
def Fault.text : Fault → String
  | empty => "empty string, expected a semver version"
  | unexpectedEnd piece => "unexpected end of input while parsing " ++ piece.text
  | unexpected piece c =>
    "unexpected character " ++ Text.showQuoted c ++ " while parsing " ++ piece.text
  | unexpectedAfter piece c =>
    "unexpected character " ++ Text.showQuoted c ++ " after " ++ piece.text
  | leadingZero piece => "invalid leading zero in " ++ piece.text
  | tooLarge piece => "value of " ++ piece.text ++ " exceeds u64::MAX"
  | emptySegment piece => "empty identifier segment in " ++ piece.text

/-- Add the digits ahead to a number that has `count` digits so far. -/
private def readDigits (piece : Piece) (value count : Nat) :
    List Char → Except Fault (Nat × List Char)
  | [] => if count = 0 then .error (.unexpectedEnd piece) else .ok (value, [])
  | c :: r =>
    if c.isDigit then
      if value = 0 && count > 0 then .error (.leadingZero piece)
      else
        let value := 10 * value + (c.toNat - '0'.toNat)
        if value < Nat.pow 2 64 then readDigits piece value (count + 1) r
        else .error (.tooLarge piece)
    else if count = 0 then .error (.unexpected piece c)
    else .ok (value, c :: r)

/-- Read one of the three numbers. -/
private def readNumber (piece : Piece) (cs : List Char) : Except Fault (Nat × List Char) :=
  readDigits piece 0 0 cs

/-- Read the dot after a number. -/
private def readDot (piece : Piece) : List Char → Except Fault (List Char)
  | [] => .error (.unexpectedEnd piece)
  | c :: r => if c == '.' then .ok r else .error (.unexpectedAfter piece c)

/-- The characters of identifiers. -/
private def isIdentifierChar (c : Char) : Bool := c.isAlphanum || c == '-'

/-- Check the segments of identifiers. A number in a pre-release has no leading zero. -/
private def checkSegments (piece : Piece) : List (List Char) → Except Fault Unit
  | [] => .ok ()
  | segment :: r =>
    if segment.isEmpty then .error (.emptySegment piece)
    else if piece == .pre && segment.all Char.isDigit && segment.length > 1 &&
        segment.head? == some '0' then .error (.leadingZero piece)
    else checkSegments piece r

/-- Read identifiers with dots between them. -/
private def readIdentifiers (piece : Piece) (cs : List Char) :
    Except Fault (String × List Char) := do
  let taken := cs.takeWhile fun c => isIdentifierChar c || c == '.'
  checkSegments piece (Text.splitAt '.' taken)
  return (String.ofList taken, cs.drop taken.length)

/-- Read identifiers after their mark, if it is there. -/
private def readMarked (mark : Char) (piece before : Piece) (cs : List Char) :
    Except Fault (String × Piece × List Char) :=
  match cs with
  | c :: r =>
    if c == mark then (readIdentifiers piece r).map fun (s, r) => (s, piece, r)
    else .ok ("", before, cs)
  | [] => .ok ("", before, [])

/-- Read a version. -/
def parse (s : String) : Except Fault Version := do
  let cs := s.toList
  if cs.isEmpty then throw .empty
  let (major, cs) ← readNumber .major cs
  let cs ← readDot .major cs
  let (minor, cs) ← readNumber .minor cs
  let cs ← readDot .minor cs
  let (patch, cs) ← readNumber .patch cs
  let (pre, last, cs) ← readMarked '-' .pre .patch cs
  let (build, last, cs) ← readMarked '+' .build last cs
  match cs with
  | [] => return ⟨major, minor, patch, pre, build⟩
  | c :: _ => throw (.unexpectedAfter last c)

/-- Read a version as hosts report it: with blanks around it and any number of `v` before it. -/
def parseReported (s : String) : Except Fault Version :=
  parse (String.ofList ((Text.trim s.toList).dropWhile (· == 'v')))

/-- Versions are ordered by their three numbers. -/
def atLeast (v : Version) (major minor patch : Nat) : Bool :=
  v.major > major ||
    (v.major == major && (v.minor > minor || (v.minor == minor && v.patch ≥ patch)))

end Version

end ScriptModules.Host

import ScriptModules.Text.Utf8

/-!
# Glob patterns

A pattern matches the bytes of a relative path. A star stands for any bytes but slashes and two
stars between slashes for any number of directories; braces hold alternatives and brackets a set
of bytes.
-/

namespace ScriptModules.Project.Glob

/-- The parts of a pattern. -/
inductive Token where
  | literal (c : Char)
  /-- One byte but a slash. -/
  | any
  /-- Any bytes but slashes. -/
  | many
  /-- Any directories at the front. -/
  | leadingDirectories
  /-- Everything below what stands before. -/
  | everythingBelow
  /-- Any directories between two slashes. -/
  | directories
  | set (negated : Bool) (ranges : List (Char × Char))
  | alternatives (branches : List (List Token))
  deriving Repr

/-- Why a text is no pattern. -/
inductive Cause where
  | unclosedClass
  | invalidRange (first last : Char)
  | unopenedAlternates
  | unclosedAlternates
  | danglingEscape
  deriving DecidableEq, Repr

/-- The wording of a cause. -/
def Cause.text : Cause → String
  | unclosedClass => "unclosed character class; missing ']'"
  | invalidRange a b =>
    "invalid range; '" ++ String.singleton a ++ "' > '" ++ String.singleton b ++ "'"
  | unopenedAlternates =>
    "unopened alternate group; missing '\x7b' (maybe escape '\x7d' with '[\x7d]'?)"
  | unclosedAlternates =>
    "unclosed alternate group; missing '\x7d' (maybe escape '\x7b' with '[\x7b]'?)"
  | danglingEscape => "dangling '\\'"

/-- The branches that are open, the innermost first, each with its tokens in reverse. `groups`
holds for each open brace how many branches were open before it. -/
structure State where
  branches : List (List Token) := [[]]
  groups : List Nat := []

/-- Add a token to the innermost branch. -/
def State.push (t : Token) (s : State) : Except Cause State :=
  match s.branches with
  | b :: r => .ok { s with branches := (t :: b) :: r }
  | [] => .error .unopenedAlternates

/-- Close the innermost brace. -/
def State.close (s : State) : Except Cause State :=
  match s.groups with
  | [] => .error .unopenedAlternates
  | n :: groups =>
    let inner := (s.branches.take (s.branches.length - n)).reverse.map List.reverse
    State.push (.alternatives inner) ⟨s.branches.drop (s.branches.length - n), groups⟩

/-- Read a set of bytes after its bracket. `ranges` is in reverse, and `open_` tells that a dash
stands after the last range. -/
def readSet (first open_ : Bool) (ranges : List (Char × Char)) :
    List Char → Except Cause (List (Char × Char) × List Char)
  | [] => .error .unclosedClass
  | c :: r =>
    let extend (c : Char) : Except Cause (List (Char × Char)) :=
      match ranges with
      | (a, _) :: more => if c < a then .error (.invalidRange a c) else .ok ((a, c) :: more)
      | [] => .ok [(c, c)]
    if c == ']' && !first then
      .ok ((if open_ then ('-', '-') :: ranges else ranges).reverse, r)
    else if c == ']' then readSet false open_ ((c, c) :: ranges) r
    else if c == '-' && !first && !open_ then readSet false true ranges r
    else if open_ then
      match extend c with
      | .ok ranges => readSet false false ranges r
      | .error e => .error e
    else readSet false false ((c, c) :: ranges) r

/-- What two stars mean, given the character before them and whether anything stands before them
in their branch: the tokens that take the place of the last one or follow it, and the rest. -/
def readStars (before : Option Char) (s : State) (r : List Char) :
    Except Cause (State × List Char × Option Char) := do
  let twice (s : State) : Except Cause State := do (← s.push .many).push .many
  let empty := s.branches.head?.any List.isEmpty
  if empty then
    match r with
    | [] => return (← s.push .leadingDirectories, [], some '*')
    | c :: rest =>
      if c == '/' then return (← s.push .leadingDirectories, rest, some '/')
      else return (← twice s, r, some '*')
  else if before != some '/' &&
      (s.branches.length ≤ 1 || (before != some ',' && before != some '\x7b')) then
    return (← twice s, r, some '*')
  else
    let replace (t : Token) : Except Cause State :=
      match s.branches with
      | (.leadingDirectories :: b) :: more =>
        .ok { s with branches := (.leadingDirectories :: b) :: more }
      | (.everythingBelow :: b) :: more =>
        .ok { s with branches := (.everythingBelow :: b) :: more }
      | (_ :: b) :: more => .ok { s with branches := (t :: b) :: more }
      | _ => .error .unopenedAlternates
    match r with
    | [] => return (← replace .everythingBelow, [], some '*')
    | c :: rest =>
      if (c == ',' || c == '\x7d') && s.branches.length ≥ 2 then
        return (← replace .everythingBelow, r, some '*')
      else if c == '/' then return (← replace .directories, rest, some '/')
      else return (← twice s, r, some '*')

/-- Read a pattern piece by piece. -/
def readTokens : Nat → Option Char → State → List Char → Except Cause State
  | 0, _, s, _ => .ok s
  | _, _, s, [] => .ok s
  | fuel + 1, before, s, c :: r => do
    if c == '?' then readTokens fuel (some c) (← s.push .any) r
    else if c == '*' then
      match r with
      | '*' :: rest =>
        let (s, rest, before) ← readStars before s rest
        readTokens fuel before s rest
      | _ => readTokens fuel (some c) (← s.push .many) r
    else if c == '[' then
      let negated := r.head? == some '!' || r.head? == some '^'
      let (ranges, rest) ← readSet true false [] (if negated then r.drop 1 else r)
      readTokens fuel (some ']') (← s.push (.set negated ranges)) rest
    else if c == '\x7b' then
      readTokens fuel (some c) ⟨[] :: s.branches, s.branches.length :: s.groups⟩ r
    else if c == '\x7d' then readTokens fuel (some c) (← s.close) r
    else if c == ',' then
      if s.groups.isEmpty then readTokens fuel (some c) (← s.push (.literal c)) r
      else readTokens fuel (some c) { s with branches := [] :: s.branches } r
    else if c == '\\' then
      match r with
      | [] => throw .danglingEscape
      | d :: rest => readTokens fuel (some d) (← s.push (.literal d)) rest
    else readTokens fuel (some c) (← s.push (.literal c)) r

/-- Read a pattern. -/
def parse (pattern : String) : Except Cause (List Token) := do
  let cs := pattern.toList
  match (← readTokens (cs.length + 1) none {} cs).branches with
  | [tokens] => return tokens.reverse
  | _ => throw .unclosedAlternates

/-- The byte of a slash. -/
def slash : UInt8 := 0x2F

/-- Whether some rest after any bytes but slashes is accepted. -/
def afterName (accept : List UInt8 → Bool) : List UInt8 → Bool
  | [] => accept []
  | b :: r => accept (b :: r) || (b != slash && afterName accept r)

/-- Whether some rest of the bytes is accepted. -/
def afterAny (accept : List UInt8 → Bool) : List UInt8 → Bool
  | [] => accept []
  | b :: r => accept (b :: r) || afterAny accept r

/-- Whether some rest after a slash is accepted. -/
def afterSlash (accept : List UInt8 → Bool) : List UInt8 → Bool
  | [] => false
  | b :: r => (b == slash && accept r) || afterSlash accept r

/-- Whether a rest after the given bytes is accepted. -/
def afterBytes (bytes : List UInt8) (accept : List UInt8 → Bool) (input : List UInt8) :
    Bool :=
  bytes.isPrefixOf input && accept (input.drop bytes.length)

/-- The ranges of bytes that a range of characters stands for: of a character of several bytes,
each byte counts by itself. -/
def byteRanges (first last : Char) : List (UInt8 × UInt8) :=
  let single (b : UInt8) : UInt8 × UInt8 := (b, b)
  let a := Text.utf8 [first]
  let z := Text.utf8 [last]
  if first == last then a.map single
  else
    a.dropLast.map single ++ [(a.getLast?.getD 0, z.headD 0)] ++ (z.drop 1).map single

mutual

/-- Whether a token can be left out because it has no branch with anything in it. -/
def Token.isVoid : Token → Bool
  | .alternatives branches => Token.areVoid branches
  | _ => false

/-- Whether all branches are empty. -/
def Token.areVoid : List (List Token) → Bool
  | [] => true
  | b :: r => Token.allVoid b && Token.areVoid r

/-- Whether all tokens are void. -/
def Token.allVoid : List Token → Bool
  | [] => true
  | t :: r => t.isVoid && Token.allVoid r

end

mutual

/-- Match a token, and accept what follows it. -/
def Token.accepts (t : Token) (accept : List UInt8 → Bool) (input : List UInt8) : Bool :=
  match t with
  | .literal c => afterBytes (Text.utf8 [c]) accept input
  | .any =>
    match input with
    | [] => false
    | b :: r => b != slash && accept r
  | .many => afterName accept input
  | .leadingDirectories => accept input || afterSlash accept input
  | .everythingBelow =>
    match input with
    | [] => false
    | b :: r => b == slash && afterAny accept r
  | .directories =>
    match input with
    | [] => false
    | b :: r => b == slash && (accept r || afterSlash accept r)
  | .set negated ranges =>
    match input with
    | [] => false
    | b :: r =>
      let inside := ranges.any fun (first, last) =>
        (byteRanges first last).any fun (x, y) => x ≤ b && b ≤ y
      inside != negated && accept r
  | .alternatives branches =>
    if Token.areVoid branches then accept input else acceptsSome branches accept input

/-- Match one of the branches that hold something, and accept what follows it. -/
def acceptsSome : List (List Token) → (List UInt8 → Bool) → List UInt8 → Bool
  | [], _, _ => false
  | b :: r, accept, input =>
    (!Token.allVoid b && acceptsAll b accept input) || acceptsSome r accept input

/-- Match tokens one after the other, and accept what follows them. -/
def acceptsAll : List Token → (List UInt8 → Bool) → List UInt8 → Bool
  | [], accept, input => accept input
  | t :: r, accept, input => t.accepts (acceptsAll r accept) input

end

/-- Whether a pattern matches a path. Two stars on their own match everything. -/
def isMatch (tokens : List Token) (path : String) : Bool :=
  match tokens with
  | [.leadingDirectories] => true
  | _ => acceptsAll tokens List.isEmpty (Text.utf8 path.toList)

end ScriptModules.Project.Glob

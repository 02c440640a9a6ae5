import ScriptModules.Url.Host

/-!
# Reading URLs

A text is read on its own or against a base. Special schemes take backslashes for slashes and
always have a path; file URLs have a host but no port.
-/

namespace ScriptModules.Url

/-- The kinds of schemes. -/
inductive SchemeKind where
  | file
  | special
  | foreign
  deriving DecidableEq, Repr

/-- The special schemes with their usual ports. -/
def usualPorts : List (String × Nat) :=
  [("http", 80), ("https", 443), ("ws", 80), ("wss", 443), ("ftp", 21)]

/-- The kind of a scheme. -/
def SchemeKind.of (scheme : String) : SchemeKind :=
  if scheme == "file" then file
  else if usualPorts.any (·.1 == scheme) then special
  else foreign

/-- Whether a character separates segments. -/
def SchemeKind.separates (k : SchemeKind) (c : Char) : Bool :=
  c == '/' || (k != .foreign && c == '\\')

/-- A letter followed by one of the given marks. -/
def isDriveWith (marks : List Char) : List Char → Bool
  | [a, b] => a.isAlpha && marks.contains b
  | _ => false

/-- A drive letter with its colon. -/
def isDrive (segment : String) : Bool := isDriveWith [':'] segment.toList

/-- Whether a text starts with a drive letter as its first segment. -/
def startsWithDrive (cs : List Char) : Bool :=
  isDriveWith [':', '|'] (cs.take 2) && (cs.drop 2).head?.all "/\\?#".toList.contains

/-- Segments that stand for the segment around them. -/
def isHere (segment : List Char) : Bool :=
  ["." , "%2e"].contains (String.ofList (segment.map Char.toLower))

/-- Segments that step up. -/
def isUp (segment : List Char) : Bool :=
  ["..", "%2e%2e", "%2e.", ".%2e"].contains (String.ofList (segment.map Char.toLower))

/-- The segments before the last one; a file keeps a drive letter at its end. -/
def dropSegment (k : SchemeKind) (names : List String) : List String :=
  if k == .file && names.getLast?.any isDrive then names else names.dropLast

/-- Step up from a segment. A segment that looks like a drive letter is not left. -/
def stepUp (names : List String) : List String :=
  if names.getLast?.any fun name => isDriveWith [':', '|'] name.toList then names
  else names.dropLast

/-- Add one segment to a path. `more` tells whether a separator follows it. -/
def addSegment (k : SchemeKind) (more : Bool) (names : List String) (segment : List Char) :
    List String :=
  if isUp segment then
    let names := stepUp names
    if more then names else names ++ [""]
  else if isHere segment then
    if more then names else names ++ [""]
  else if k == .file && names.isEmpty && isDriveWith [':', '|'] segment then
    names ++ [String.ofList (segment.take 1 ++ [':'])]
  else names ++ [String.ofList (encode isEncodedInPath segment)]

/-- Add the segments of a text to a path; `segment` holds the characters of the segment that has
begun, last first. -/
def addSegments (k : SchemeKind) (names : List String) (segment : List Char) :
    List Char → List String
  | [] => addSegment k false names segment.reverse
  | c :: r =>
    if k.separates c then addSegments k (addSegment k true names segment.reverse) [] r
    else addSegments k names (c :: segment) r

/-- The path of a file has no empty segments at its front. -/
def trimFront (k : SchemeKind) (names : List String) : List String :=
  if k == .file then
    match names.dropWhile (· == "") with
    | [] => [""]
    | trimmed => trimmed
  else names

/-- Append what a text says to a path. -/
def extend (k : SchemeKind) (names : List String) (cs : List Char) : List String :=
  trimFront k (addSegments k names [] cs)

/-- A text up to its query or fragment, and the rest. -/
def splitPath (cs : List Char) : List Char × List Char :=
  cs.span fun c => c != '?' && c != '#'

/-- A fragment after its mark. -/
def fragmentOf (cs : List Char) : String := String.ofList (encode isEncodedInFragment cs)

/-- The query and the fragment of what stands after a path. -/
def queryAndFragment (k : SchemeKind) (cs : List Char) : Option String × Option String :=
  match cs with
  | '?' :: r =>
    let (query, rest) := r.span (· != '#')
    let query := String.ofList (encode (isEncodedInQuery (k != .foreign)) query)
    (some query, if rest.isEmpty then none else some (fragmentOf (rest.drop 1)))
  | '#' :: r => (none, some (fragmentOf r))
  | _ => (none, none)

/-- A text up to the end of its authority, and the rest. -/
def splitAuthority (k : SchemeKind) (cs : List Char) : List Char × List Char :=
  cs.span fun c => !(c == '/' || c == '?' || c == '#' || (k != .foreign && c == '\\'))

/-- What stands before the last mark, if there is one, and after it. -/
def splitAtLast (mark : Char) (cs : List Char) : Option (List Char) × List Char :=
  let after := (cs.reverse.takeWhile (· != mark)).reverse
  if after.length == cs.length then (none, cs)
  else (some (cs.take (cs.length - after.length - 1)), after)

/-- User and password, encoded, with the closing mark. -/
def userInfoText (cs : List Char) : String :=
  let (user, rest) := cs.span (· != ':')
  let password := rest.drop 1
  let encoded (l : List Char) : List Char := encode isEncodedInUserInfo l
  let text := encoded user ++ if password.isEmpty then [] else ':' :: encoded password
  if text.isEmpty then "" else String.ofList (text ++ ['@'])

/-- A host up to the colon before its port, and the rest. Colons inside brackets belong to the
host. -/
def splitPort (inside : Bool) : List Char → List Char × List Char
  | [] => ([], [])
  | c :: r =>
    if c == ':' && !inside then ([], c :: r)
    else
      let inside := if c == '[' then true else if c == ']' then false else inside
      let (host, rest) := splitPort inside r
      (c :: host, rest)

/-- A port after its colon, and the rest, which can only start with a backslash. The usual port of
the scheme is left out. -/
def parsePort (scheme : String) (cs : List Char) :
    Except Fault (Option Nat × List Char) :=
  let (digits, rest) := cs.span Char.isDigit
  let n := (digits.foldl (fun n c => min (n * 10 + (c.toNat - 0x30)) 65536) 0 : Nat)
  if n > 65535 then .error .invalidPort
  else if rest.head?.any (· != '\\') then .error .invalidPort
  else if digits.isEmpty || usualPorts.lookup scheme == some n then .ok (none, rest)
  else .ok (some n, rest)

/-- Read an authority and what follows it. -/
def parseAuthority (scheme : String) (k : SchemeKind) (cs : List Char) :
    Except Fault (Authority × List Char) := do
  let (text, rest) := splitAuthority k cs
  let (userInfo?, hostAndPort) := splitAtLast '@' text
  if userInfo? == some [] && hostAndPort.isEmpty && !rest.isEmpty then throw .emptyHost
  let userInfo := userInfoText (userInfo?.getD [])
  let (hostText, portText) := splitPort false hostAndPort
  if k == .special && hostText.isEmpty then throw .emptyHost
  let host ← if k == .foreign then parseForeignHost hostText else (parseHost hostText).map some
  if host.isNone && !portText.isEmpty then throw .emptyHost
  let (port, afterPort) ←
    match portText with
    | _ :: digits => parsePort scheme digits
    | [] => pure (none, [])
  if host.isNone && userInfo != "" then throw .emptyHost
  return (⟨userInfo, host, port⟩, afterPort ++ rest)

/-- Read the path of a URL with an authority, and all that follows. -/
def finishAuthority (scheme : String) (k : SchemeKind) (a : Authority) (rest : List Char) :
    Url :=
  let (pathText, after) := splitPath rest
  let (query, fragment) := queryAndFragment k after
  let names :=
    match pathText with
    | [] => if k == .foreign then [] else [""]
    | c :: r => if k.separates c then extend k [] r else extend k [] (c :: r)
  ⟨scheme, some a, .segments names, query, fragment⟩

/-- Read what follows the two slashes. -/
def afterSlashes (scheme : String) (k : SchemeKind) (cs : List Char) :
    Except Fault Url := do
  let (a, rest) ← parseAuthority scheme k cs
  return finishAuthority scheme k a rest

/-- The segments of a path. -/
def segmentsOf (u : Url) : List String :=
  match u.location with
  | .segments names => names
  | .plain _ => []

/-- Read a text that continues a base: its path replaces the last segment of the base. -/
def continueBase (base : Url) (k : SchemeKind) (cs : List Char) : Url :=
  match cs with
  | [] => { base with fragment := none }
  | '?' :: _ =>
    let (query, fragment) := queryAndFragment k cs
    { base with query := query, fragment := fragment }
  | '#' :: r => { base with fragment := some (fragmentOf r) }
  | _ =>
    let (pathText, after) := splitPath cs
    let (query, fragment) := queryAndFragment k after
    let before := dropSegment k base.segmentsOf
    { base with
      location := .segments (extend k before pathText)
      query := query
      fragment := fragment }

/-- The host of a file URL, and whether a path follows it; a drive letter is no host. -/
def parseFileHost (cs : List Char) : Except Fault (Option Host × List Char) :=
  let (text, rest) := cs.span fun c => !"/\\?#".toList.contains c
  if isDriveWith [':', '|'] text then .ok (none, '/' :: cs)
  else if text.isEmpty then .ok (none, rest)
  else
    (parseHost text).map fun host =>
      (if host == .domain "localhost" then none else some host, rest)

/-- Read a file URL after its scheme. -/
def parseFile (base? : Option Url) (cs : List Char) : Except Fault Url :=
  let separates := SchemeKind.file.separates
  match cs with
  | a :: b :: r =>
    if separates a && separates b then
      (parseFileHost r).map fun (host, rest) =>
        let u := finishAuthority "file" .file { host := host } rest
        if u.segmentsOf.head?.any isDrive then { u with authority := some {} } else u
    else if separates a then .ok (rooted (b :: r))
    else .ok (relative cs)
  | [a] => if separates a then .ok (rooted []) else .ok (relative cs)
  | [] => .ok (relative [])
where
  /-- A path from the root, on the host of the base. -/
  rooted (r : List Char) : Url :=
    let drive? := (base?.bind (·.segmentsOf.head?)).filter isDrive
    let host := base?.bind Url.host?
    let (pathText, after) := splitPath r
    let (query, fragment) := queryAndFragment .file after
    let host := if startsWithDrive r then none else if drive?.isSome then none else host
    let front := if startsWithDrive r then [] else drive?.toList
    ⟨"file", some { host := host }, .segments (extend .file front pathText), query, fragment⟩
  /-- A path that goes on from the base. -/
  relative (r : List Char) : Url :=
    match base? with
    | some base =>
      if startsWithDrive r then finishAuthority "file" .file {} r
      else continueBase base .file r
    | none => finishAuthority "file" .file {} r

/-- Read a scheme and its colon. -/
def splitScheme? (cs : List Char) : Option (String × List Char) :=
  match cs with
  | [] => none
  | c :: _ =>
    if !c.isAlpha then none
    else
      let name := cs.takeWhile fun c => c.isAlphanum || "+-.".toList.contains c
      match cs.drop name.length with
      | ':' :: r => some (String.ofList (name.map Char.toLower), r)
      | _ => none

/-- Read a URL of a foreign scheme. -/
def parseForeign (scheme : String) (cs : List Char) : Except Fault Url :=
  match cs with
  | '/' :: '/' :: r => afterSlashes scheme .foreign r
  | _ =>
    let (pathText, after) := splitPath cs
    let (query, fragment) := queryAndFragment .foreign after
    let location : UrlPath :=
      match pathText with
      | '/' :: r => .segments (extend .foreign [] r)
      | _ => .plain (String.ofList (encode isControl pathText))
    .ok ⟨scheme, none, location, query, fragment⟩

/-- Read a text without a scheme against a base. At its front, backslashes count as slashes. -/
def parseRelative (base : Url) (k : SchemeKind) (cs : List Char) : Except Fault Url :=
  let isSlash (c : Char) : Bool := c == '/' || c == '\\'
  match cs with
  | a :: b :: r =>
    if isSlash a && isSlash b then
      let plain := a == '/' && b == '/'
      let r := if k == .special || !plain then r.dropWhile isSlash else r
      afterSlashes base.scheme k r
    else if isSlash a then .ok (fromRoot (b :: r))
    else .ok (continueBase base k cs)
  | [a] => if isSlash a then .ok (fromRoot []) else .ok (continueBase base k cs)
  | [] => .ok (continueBase base k [])
where
  /-- A path from the root of the base. -/
  fromRoot (r : List Char) : Url :=
    let (pathText, after) := splitPath r
    let (query, fragment) := queryAndFragment k after
    { base with
      location := .segments (extend k [] pathText)
      query := query
      fragment := fragment }

/-- A text without the control characters and blanks around it and the breaks within. -/
def clean (s : String) : List Char :=
  let isEdge (c : Char) : Bool := c.val.toNat ≤ 0x20
  let trimmed := ((s.toList.dropWhile isEdge).reverse.dropWhile isEdge).reverse
  trimmed.filter fun c => c != '\t' && c != '\n' && c != '\r'

/-- Read a URL, against a base if there is one. -/
def parseWith (base? : Option Url) (s : String) : Except Fault Url :=
  let cs := clean s
  match splitScheme? cs with
  | some (scheme, r) =>
    match SchemeKind.of scheme with
    | .file => parseFile (base?.filter (·.scheme == "file")) r
    | .special =>
      let slashes := r.takeWhile SchemeKind.special.separates
      match base?.filter (·.scheme == scheme) with
      | some base =>
        if slashes.length < 2 then parseRelative base .special r
        else afterSlashes scheme .special (r.drop slashes.length)
      | none => afterSlashes scheme .special (r.drop slashes.length)
    | .foreign => parseForeign scheme r
  | none =>
    match base? with
    | none => .error .relativeWithoutBase
    | some base =>
      match cs, base.location with
      | '#' :: r, _ => .ok { base with fragment := some (fragmentOf r) }
      | _, .plain _ => .error .relativeWithPlainBase
      | _, .segments _ =>
        match SchemeKind.of base.scheme with
        | .file => parseFile (some base) cs
        | k => parseRelative base k cs

/-- Read a URL. -/
def parse (s : String) : Except Fault Url := parseWith none s

/-- Read a URL against a base. -/
def join (base : Url) (s : String) : Except Fault Url := parseWith (some base) s

end ScriptModules.Url

/-!
# URLs

A URL in its normal form: scheme, optional authority, path, query and fragment.
-/

namespace ScriptModules

namespace Url

/-- Where a URL points to before its path. -/
inductive Host where
  | domain (name : String)
  | ipv4 (address : Nat)
  | ipv6 (groups : List Nat)
  deriving DecidableEq, Repr

/-- What stands between the two slashes and the path. -/
structure Authority where
  /-- User and password with their closing mark, or nothing. -/
  userInfo : String := ""
  host : Option Host := none
  port : Option Nat := none
  deriving DecidableEq, Repr

/-- The path of a URL: one piece of text that is not split at slashes, or segments, each of which
follows a slash. -/
inductive UrlPath where
  | plain (text : String)
  | segments (names : List String)
  deriving DecidableEq, Repr

end Url

/-- A URL in its normal form. -/
structure Url where
  scheme : String
  authority : Option Url.Authority := none
  location : Url.UrlPath
  query : Option String := none
  fragment : Option String := none
  deriving DecidableEq, Repr

namespace Url

/-- The hexadecimal digits of a group of an address. -/
private def groupText (n : Nat) : String := String.ofList (Nat.toDigits 16 n)

/-- The length of the run of zero groups at the head. -/
private def zeroRun (groups : List Nat) : Nat := (groups.takeWhile (· == 0)).length

/-- The start and length of the first longest run of at least two zero groups. -/
private def longestZeros (groups : List Nat) : Option (Nat × Nat) :=
  (List.range groups.length).foldl (fun best i =>
    let n := zeroRun (groups.drop i)
    if n ≥ 2 && best.all (·.2 < n) then some (i, n) else best) none

/-- An address of eight groups; its longest run of zeros is left out. -/
def ipv6Text (groups : List Nat) : String :=
  let joined (l : List Nat) : String := ":".intercalate (l.map groupText)
  match longestZeros groups with
  | none => joined groups
  | some (i, n) => joined (groups.take i) ++ "::" ++ joined (groups.drop (i + n))

/-- The text of a host. -/
def Host.text : Host → String
  | domain name => name
  | ipv4 n =>
    ".".intercalate
      ([n / 16777216, n / 65536 % 256, n / 256 % 256, n % 256].map fun part => toString part)
  | ipv6 groups => "[" ++ ipv6Text groups ++ "]"

/-- The text of an authority, without its slashes. -/
def Authority.text (a : Authority) : String :=
  a.userInfo ++ ((a.host.map Host.text).getD "") ++
    ((a.port.map fun p => ":" ++ toString p).getD "")

/-- The text of the path of a URL. -/
def UrlPath.text : UrlPath → String
  | plain text => text
  | segments names => String.join (names.map ("/" ++ ·))

/-- The path of a URL. -/
def path (u : Url) : String := u.location.text

/-- The path between its authority and its query. Without an authority, a path that starts with
two slashes is kept apart from the scheme. -/
private def pathAfterAuthority (u : Url) : String :=
  match u.authority, u.location with
  | none, .segments ("" :: name :: rest) => "/." ++ (UrlPath.segments ("" :: name :: rest)).text
  | _, location => location.text

/-- The text of a URL. -/
def text (u : Url) : String :=
  u.scheme ++ ":" ++ ((u.authority.map fun a => "//" ++ a.text).getD "") ++
    u.pathAfterAuthority ++ ((u.query.map ("?" ++ ·)).getD "") ++
    ((u.fragment.map ("#" ++ ·)).getD "")

/-- The host of a URL. -/
def host? (u : Url) : Option Host := u.authority.bind Authority.host

end Url

end ScriptModules

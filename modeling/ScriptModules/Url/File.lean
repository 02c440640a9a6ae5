import ScriptModules.Path
import ScriptModules.Url.Parser

/-!
# File URLs and paths

An absolute path and its URL name the same file.
-/

namespace ScriptModules

/-- The URL segment of a part of a path. -/
def Path.Part.segment : Path.Part → String
  | .root => ""
  | .here => "."
  | .up => ".."
  | .name s => String.ofList (Url.encode Url.isEncodedInName s.toList)

/-- The URL of an absolute path. -/
def Url.ofPath? (p : Path) : Option Url :=
  if p.isAbsolute then
    let names := (p.parts.drop 1).map Path.Part.segment
    some { scheme := "file", authority := some {}
           location := .segments (if names.isEmpty then [""] else names) }
  else none

/-- The URL of an absolute path to a directory. -/
def Url.ofDirectory? (p : Path) : Option Url :=
  (Url.ofPath? p).map fun u =>
    match u.segmentsOf.getLast? with
    | some "" | none => u
    | some _ => { u with location := .segments (u.segmentsOf ++ [""]) }

/-- A path that ends in a drive letter gets a slash. -/
def closeDrive (s : String) : String :=
  match s.toList.reverse with
  | m :: a :: _ :: _ =>
    if a.isAlpha && (m == ':' || m == '|') then s ++ "/" else s
  | _ => s

/-- The path that a URL names, if it has segments and no host but this one. A path is a text here,
so bytes that are not UTF-8 come out as replacement characters. -/
def Url.toPath? (u : Url) : Option Path :=
  match u.location with
  | .plain _ => none
  | .segments names =>
    if u.host? = none ∨ u.host? = some (.domain "localhost") then
      some ⟨closeDrive (Text.decodeLossy (names.flatMap fun name =>
        Text.utf8 ['/'] ++ Url.decode name.toList))⟩
    else none

end ScriptModules

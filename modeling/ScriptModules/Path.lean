import ScriptModules.Text.Split

/-!
# File paths

A path is text with slashes. Its parts leave out empty names and single dots, so two spellings of
a path have the same parts; a path that starts with a dot keeps that dot as its first part.
-/

namespace ScriptModules

/-- A file path as it is written. -/
structure Path where
  text : String
  deriving DecidableEq, Repr, Inhabited

namespace Path

/-- One step of a path. -/
inductive Part where
  | root
  | here
  | up
  | name (s : String)
  deriving DecidableEq, Repr

/-- The pieces of a path between its slashes. -/
def pieces (p : Path) : List String := (Text.splitAt '/' p.text.toList).map String.ofList

/-- A path from its pieces. -/
def ofPieces (pieces : List String) : Path :=
  match pieces with
  | [""] => ⟨"/"⟩
  | _ => ⟨"/".intercalate pieces⟩

/-- Pieces that are no part of a path. -/
def isIdle (piece : String) : Bool := piece == "" || piece == "."

/-- The part that a piece after the first stands for. -/
def partOf? (piece : String) : Option Part :=
  if isIdle piece then none else if piece == ".." then some .up else some (.name piece)

/-- The parts of a path in order. -/
def parts (p : Path) : List Part :=
  match p.pieces with
  | [] => []
  | [first] => if first == "." then [.here] else (partOf? first).toList
  | first :: rest =>
    let start :=
      if first == "" then [.root] else if first == "." then [.here] else (partOf? first).toList
    start ++ rest.filterMap partOf?

/-- A path starts at the root when its text starts with a slash. -/
def isAbsolute (p : Path) : Bool := p.text.toList.head? == some '/'

/-- A path below another. An absolute path stands for itself. -/
def join (p : Path) (rest : String) : Path :=
  if rest.toList.head? == some '/' then ⟨rest⟩
  else
    match p.text.toList.getLast? with
    | none => ⟨rest⟩
    | some c => if c == '/' then ⟨p.text ++ rest⟩ else ⟨p.text ++ "/" ++ rest⟩

/-- The path with the given parts. -/
def ofParts (parts : List Part) : Path :=
  parts.foldl (fun p part =>
    match part with
    | .root => ⟨"/"⟩
    | .here => p.join "."
    | .up => p.join ".."
    | .name s => p.join s) ⟨""⟩

/-- Pieces without the idle ones at the end; the first piece stays. -/
def trimIdle : List String → List String
  | [] => []
  | first :: rest => first :: (rest.reverse.dropWhile isIdle).reverse

/-- The path without its last part. Neither the root nor the empty path has one. -/
def parent? (p : Path) : Option Path :=
  if p.text == "" then none
  else
    match trimIdle p.pieces with
    | [] => none
    | [first] => if first == "" then none else some ⟨""⟩
    | first :: second :: rest =>
      some (ofPieces (trimIdle ((first :: second :: rest).dropLast)))

/-- A path, its parent, the parent of that, and so on. -/
def ancestorsWithin : Nat → Path → List Path
  | 0, p => [p]
  | fuel + 1, p =>
    match p.parent? with
    | none => [p]
    | some q => p :: ancestorsWithin fuel q

/-- A path and everything above it. -/
def ancestors (p : Path) : List Path := ancestorsWithin p.pieces.length p

/-- The last part, if it is a name. -/
def fileName? (p : Path) : Option String :=
  match p.parts.getLast? with
  | some (.name s) => some s
  | _ => none

/-- What stands after the last dot of a name, unless nothing stands before it. -/
def extensionOfName? (name : String) : Option String :=
  let cs := name.toList.reverse
  match cs.dropWhile (· != '.') with
  | _ :: _ :: _ => some (String.ofList (cs.takeWhile (· != '.')).reverse)
  | _ => none

/-- The extension of the last part. -/
def extension? (p : Path) : Option String := p.fileName?.bind extensionOfName?

/-- Whether the parts of one path start with those of another. -/
def startsWith (p base : Path) : Bool := base.parts.isPrefixOf p.parts

/-- What is left of a path without a directory above it. -/
def below? (p base : Path) : Option Path :=
  if p.startsWith base then some (ofParts (p.parts.drop base.parts.length)) else none

/-- Two paths are the same when their parts are. -/
def same (p q : Path) : Bool := p.parts == q.parts

/-- Fold single dots and steps up. A step up without a name before it stays. -/
def normalize (p : Path) : Path :=
  ofParts (p.parts.foldl (fun (acc : List Part) part =>
    match part with
    | .here => acc
    | .up =>
      match acc with
      | .name _ :: rest => rest
      | _ => .up :: acc
    | part => part :: acc) []).reverse

end Path

end ScriptModules

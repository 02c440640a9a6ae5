import ScriptModules.Path
import ScriptModules.Text.Utf8

/-!
# File trees

The files and directories that can be read. A path is followed from the root one part at a time,
and every part but the last has to be a directory.
-/

namespace ScriptModules.Files

/-- What stands at a place. -/
inductive Entry where
  | file (bytes : List UInt8)
  | directory
  deriving DecidableEq, Repr

/-- Why a file cannot be read. -/
inductive Fault where
  | zeroInName
  | nameTooLong
  | notFound
  | notDirectory
  | isDirectory
  | notText
  deriving DecidableEq, Repr

/-- The wording of a fault. -/
def Fault.text : Fault → String
  | zeroInName => "file name contained an unexpected NUL byte"
  | nameTooLong => "File name too long (os error 36)"
  | notFound => "No such file or directory (os error 2)"
  | notDirectory => "Not a directory (os error 20)"
  | isDirectory => "Is a directory (os error 21)"
  | notText => "stream did not contain valid UTF-8"

/-- Files and directories, by the names on the way from the root. -/
structure Tree where
  entries : List (List String × Entry) := []
  deriving Repr

namespace Tree

/-- What stands at the end of a way. The root is a directory. -/
def at? (t : Tree) (way : List String) : Option Entry :=
  if way.isEmpty then some .directory else t.entries.lookup way

/-- The most bytes that one name may have. -/
def longestName : Nat := 255

/-- The most bytes that a whole path may have. -/
def longestPath : Nat := 4095

/-- Follow the pieces of a path from a way. -/
def follow (t : Tree) (way : List String) : List String → Except Fault (List String)
  | [] => .ok way
  | piece :: rest =>
    match t.at? way with
    | none => .error .notFound
    | some (.file _) => .error .notDirectory
    | some .directory =>
      if piece == "" || piece == "." then t.follow way rest
      else if piece == ".." then t.follow way.dropLast rest
      else if piece.utf8ByteSize > longestName then .error .nameTooLong
      else t.follow (way ++ [piece]) rest

/-- The way that an absolute path describes. -/
def wayOf (t : Tree) (p : Path) : Except Fault (List String) :=
  if p.text.toList.contains '\x00' then .error .zeroInName
  else if p.text.utf8ByteSize > longestPath then .error .nameTooLong
  else if p.isAbsolute then t.follow [] (p.pieces.drop 1) else .error .notFound

/-- What stands at a path. -/
def entry (t : Tree) (p : Path) : Except Fault Entry := do
  match t.at? (← t.wayOf p) with
  | some e => return e
  | none => throw .notFound

/-- Whether a file stands at a path. -/
def isFile (t : Tree) (p : Path) : Bool :=
  match t.entry p with
  | .ok (.file _) => true
  | _ => false

/-- Whether a directory stands at a path. -/
def isDirectory (t : Tree) (p : Path) : Bool :=
  match t.entry p with
  | .ok .directory => true
  | _ => false

/-- The bytes of a file. -/
def read (t : Tree) (p : Path) : Except Fault (List UInt8) := do
  match ← t.entry p with
  | .file bytes => return bytes
  | .directory => throw .isDirectory

/-- The text of a file. -/
def readText (t : Tree) (p : Path) : Except Fault String := do
  match Text.decode? (← t.read p) with
  | some s => return s
  | none => throw .notText

/-- Put something at the end of a way. -/
def put (way : List String) (e : Entry) (t : Tree) : Tree :=
  ⟨(way, e) :: t.entries.filter (·.1 != way)⟩

/-- Make the directories on a way that are not there yet. -/
def makeWay (way : List String) (t : Tree) : Tree :=
  (List.range (way.length + 1)).foldl (fun t n =>
    match t.at? (way.take n) with
    | some _ => t
    | none => t.put (way.take n) .directory) t

/-- Write a file, along with the directories around it. -/
def write (way : List String) (bytes : List UInt8) (t : Tree) : Tree :=
  (t.makeWay way.dropLast).put way (.file bytes)

/-- Remove a file, or a directory with everything in it. -/
def remove (way : List String) (t : Tree) : Tree :=
  ⟨t.entries.filter fun (other, _) => !way.isPrefixOf other⟩

end Tree

end ScriptModules.Files

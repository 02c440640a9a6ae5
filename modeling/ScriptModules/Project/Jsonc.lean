import ScriptModules.Json.Reader
import ScriptModules.Text.Blank

/-!
# JSON with comments

Configuration files may hold comments, and a comma may stand before a closing bracket. Both are
taken out before the text is read as JSON; line breaks stay, so a fault keeps its line.
-/

namespace ScriptModules.Project.Jsonc

/-- Where a reader of comments is. -/
inductive Inside where
  | text
  | string
  /-- Right after a backslash in a string. -/
  | escape
  | lineComment
  /-- In a block comment; `star` tells whether the last character was a star. -/
  | blockComment (star : Bool)
  /-- Before the second character of the mark that opens a block comment. -/
  | blockStart
  deriving DecidableEq, Repr

/-- Take out comments. A block comment leaves a blank, and its line breaks before that. -/
def withoutComments : Inside → List Char → List Char
  | .blockComment _, [] => [' ']
  | .blockStart, [] => [' ']
  | _, [] => []
  | .text, c :: r =>
    if c == '\x22' then c :: withoutComments .string r
    else if c == '/' && r.head? == some '/' then withoutComments .lineComment r
    else if c == '/' && r.head? == some '*' then withoutComments .blockStart r
    else c :: withoutComments .text r
  | .string, c :: r =>
    c :: withoutComments (if c == '\\' then .escape else if c == '\x22' then .text else .string) r
  | .escape, c :: r => c :: withoutComments .string r
  | .lineComment, c :: r =>
    if c == '\n' then c :: withoutComments .text r else withoutComments .lineComment r
  | .blockStart, _ :: r => withoutComments (.blockComment false) r
  | .blockComment star, c :: r =>
    if star && c == '/' then ' ' :: withoutComments .text r
    else if c == '\n' then c :: withoutComments (.blockComment false) r
    else withoutComments (.blockComment (c == '*')) r

/-- Whether a closing bracket comes next. -/
def closesNext (cs : List Char) : Bool :=
  match cs.dropWhile Text.isBlank with
  | c :: _ => c == '\x7d' || c == ']'
  | [] => false

/-- Take out commas before closing brackets. -/
def withoutTrailingCommas : Inside → List Char → List Char
  | _, [] => []
  | .string, c :: r =>
    c :: withoutTrailingCommas
      (if c == '\\' then .escape else if c == '\x22' then .text else .string) r
  | .escape, c :: r => c :: withoutTrailingCommas .string r
  | _, c :: r =>
    if c == '\x22' then c :: withoutTrailingCommas .string r
    else if c == ',' && closesNext r then withoutTrailingCommas .text r
    else c :: withoutTrailingCommas .text r

/-- The JSON text of a text with comments. -/
def clean (s : String) : String :=
  String.ofList (withoutTrailingCommas .text (withoutComments .text s.toList))

/-- Read JSON with comments. -/
def parse (s : String) : Except Json.Fault Json.Value := Json.parse (clean s)

end ScriptModules.Project.Jsonc

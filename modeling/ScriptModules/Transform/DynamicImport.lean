import ScriptModules.Grammar.Recovery
import ScriptModules.Transform.Basic

/-!
# Dynamic imports

A script that was made into a module has its exports behind a default export. A check after
every dynamic import takes that default in place of the module around it.
-/

namespace ScriptModules.DynamicImport

open Grammar (Tree Dialect)

/-- What is written after every dynamic import. -/
def check : String :=
  ".then((mod)=>\x7bconst exports = Object.keys(mod);if(exports.length===1&&exports[0]===" ++
  "'default'&&mod.default&&mod.default.__esModule)\x7breturn mod.default\x7dreturn mod\x7d)"

/-- Whether a tree is a call of `import`. -/
def isDynamicImport (t : Tree) : Bool :=
  t.kind == .call && t.children.head?.any (·.kind == .mark "import")

/-- The offsets just past each dynamic import, in order. -/
def ends (dialect : Dialect) (source : String) : List Nat :=
  let tree := Grammar.parseAnyway dialect source
  ((tree.preorder.filter isDynamicImport).map (·.span.stop)).mergeSort

/-- Write the check at each offset, in order. -/
def insertChecks (offset : Nat) : List Nat → List Char → List Char
  | ends, [] => ends.flatMap fun _ => check.toList
  | ends, c :: r =>
    (ends.takeWhile (· ≤ offset)).flatMap (fun _ => check.toList) ++
      c :: insertChecks (offset + c.utf8Size) (ends.dropWhile (· ≤ offset)) r

/-- The segments of a line, given the columns after which a check stands. The check comes from
the end of the import before it. -/
def segmentsOf (line : Nat) (columns : List Nat) : List Segment :=
  let segment (generated column : Nat) : Segment :=
    ⟨generated.toUInt32, 0, line.toUInt32, column.toUInt32, none⟩
  let width := Text.unitsOf check.toList
  let inserted := columns.zipIdx.flatMap fun (column, k) =>
    [segment (column + k * width) column, segment (column + (k + 1) * width) column]
  inserted.foldl (fun line s => SourceMap.insertSegment s line) [segment 0 0]

/-- The segments of each line, given its text and the offset where it starts. -/
def segmentLines (line start : Nat) (ends : List Nat) : List (List Char) → List (List Segment)
  | [] => []
  | text :: r =>
    let stop := start + Text.bytesOf text
    let here := ends.takeWhile (· ≤ stop)
    let columns := here.map fun e => Text.unitsOf (Text.before (e - start) text)
    segmentsOf line columns ::
      segmentLines (line + 1) (stop + 1) (ends.dropWhile (· ≤ stop)) r

/-- Write a check after every dynamic import, if there is any. -/
def rewrite? (code : String) (path : Path) (dialect : Dialect) : Option Transformed :=
  if !Text.holds "import".toList code.toList then none
  else
    match ends dialect code with
    | [] => none
    | found =>
      some ⟨String.ofList (insertChecks 0 found code.toList),
        .ofLines path.text code (segmentLines 0 0 found (Text.lines code.toList))⟩

end ScriptModules.DynamicImport

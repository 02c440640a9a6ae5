import ScriptModules.Text.Position

/-!
# Source maps

A source map tells for places of a generated text where they came from. Lines and columns count
from zero, and a line's segments are kept in the order of their columns.
-/

namespace ScriptModules

/-- One mapping on a generated line. -/
structure Segment where
  generatedColumn : UInt32
  source : UInt32
  originalLine : UInt32
  originalColumn : UInt32
  name : Option UInt32 := none
  deriving DecidableEq, Repr

/-- Where a generated place came from. -/
structure Origin where
  source : String
  line : UInt32
  column : UInt32
  name : Option String
  deriving DecidableEq, Repr

/-- A map from the places of a generated text to their origins. -/
structure SourceMap where
  file : Option String := none
  sources : List String := []
  /-- The text of each source, where it is known. -/
  contents : List (Option String) := []
  names : List String := []
  /-- The segments of each generated line. -/
  lines : List (List Segment) := []
  deriving DecidableEq, Repr

namespace SourceMap

/-- Put a segment behind all that start at its column or before. -/
def insertSegment (s : Segment) (line : List Segment) : List Segment :=
  line.takeWhile (·.generatedColumn ≤ s.generatedColumn) ++
    s :: line.dropWhile (·.generatedColumn ≤ s.generatedColumn)

/-- Change one line, adding empty lines up to it where there are none yet. -/
def changeLine (f : List Segment → List Segment) :
    Nat → List (List Segment) → List (List Segment)
  | 0, [] => [f []]
  | 0, l :: ls => f l :: ls
  | n + 1, [] => [] :: changeLine f n []
  | n + 1, l :: ls => l :: changeLine f n ls

/-- Add a segment to a generated line. -/
def add (line : Nat) (s : Segment) (m : SourceMap) : SourceMap :=
  { m with lines := changeLine (insertSegment s) line m.lines }

/-- Add a source unless its path is there already, and answer with its index. -/
def addSource (path : String) (content : Option String) (m : SourceMap) : SourceMap × UInt32 :=
  match m.sources.findIdx? (· == path) with
  | some i => (m, i.toUInt32)
  | none =>
    ({ m with sources := m.sources ++ [path], contents := m.contents ++ [content] },
      m.sources.length.toUInt32)

/-- A map in which every line has the given segments of one source. -/
def ofLines (path content : String) (lines : List (List Segment)) : SourceMap :=
  { sources := [path], contents := [some content], lines := lines }

/-- The map in which every line comes from the same line of the source. -/
def identity (path content : String) : SourceMap :=
  ofLines path content
    ((List.range (Text.lines content.toList).length).map fun line =>
      [⟨0, 0, line.toUInt32, 0, none⟩])

/-- A map is empty when no line has a segment. -/
def isEmpty (m : SourceMap) : Bool := m.lines.all List.isEmpty

/-- The last segment of a line that starts at the column or before. -/
def segmentAt? (column : UInt32) (line : List Segment) : Option Segment :=
  (line.takeWhile (·.generatedColumn ≤ column)).getLast?

/-- The origin of a generated place. A segment of a source that is not listed has none. -/
def origin? (line column : UInt32) (m : SourceMap) : Option Origin := do
  let segments ← m.lines[line.toNat]?
  let segment ← segmentAt? column segments
  let source ← m.sources[segment.source.toNat]?
  return ⟨source, segment.originalLine, segment.originalColumn,
    segment.name.bind fun n => m.names[n.toNat]?⟩

/-- The text of the first source with the given path. -/
def contentOf? (path : String) (m : SourceMap) : Option String := do
  let i ← m.sources.findIdx? (· == path)
  let content ← m.contents[i]?
  content

/-- Follow a segment of a later map through an earlier one. -/
def follow (earlier : SourceMap) (composed : SourceMap) (line : Nat) (s : Segment) : SourceMap :=
  match earlier.origin? s.originalLine s.originalColumn with
  | none => composed
  | some origin =>
    let (composed, source) := composed.addSource origin.source (earlier.contentOf? origin.source)
    composed.add line ⟨s.generatedColumn, source, origin.line, origin.column, none⟩

/-- Chain two maps: `later` maps a text to an intermediate one, which `earlier` maps to the
sources. Segments without an origin and names are dropped. -/
def compose (later earlier : SourceMap) : SourceMap :=
  later.lines.zipIdx.foldl
    (fun composed (segments, line) =>
      segments.foldl (fun composed s => follow earlier composed line s) composed)
    { file := later.file }

end SourceMap

end ScriptModules

import Mathlib.Order.Basic
import ScriptModules.Proofs.Load.Outcome

/-!
# Lines of what was made

However a module is made of a source, its first lines are those of the source, or of the document
in it, and its map sends every place of such a line to the same line of the source. Each way to
make a module writes its map in its own way; what they share is that a line starts with a segment
at its first column and that all its segments come from one line.
-/

namespace ScriptModules

namespace SourceMap

/-- A line whose segments all come from one line of the first source, and cover all its columns. -/
structure FromLine (line : UInt32) (segments : List Segment) : Prop where
  starts : ∃ s rest, segments = s :: rest ∧ s.generatedColumn = 0
  comes : ∀ s ∈ segments, s.source = 0 ∧ s.originalLine = line

/-- Lines that come from the lines of the first source, from a given line on. -/
def FollowFrom (first : Nat) (lines : List (List Segment)) : Prop :=
  ∀ k segments, lines[k]? = some segments → FromLine (first + k).toUInt32 segments

/-- A map whose lines come from as many lines of one source. -/
structure KeepsLines (m : SourceMap) (path : String) (count : Nat) : Prop where
  sources : m.sources = [path]
  length : m.lines.length = count
  follow : FollowFrom 0 m.lines

/-- A line with one segment at its start comes from the line that it is sent to. -/
theorem FromLine.singleton (line column : UInt32) : FromLine line [⟨0, 0, line, column, none⟩] where
  starts := ⟨_, [], rfl, rfl⟩
  comes := by simp

/-- A segment of the line goes behind the first. -/
theorem FromLine.insertSegment {line : UInt32} {segments : List Segment}
    (h : FromLine line segments) {s : Segment} (hs : s.source = 0 ∧ s.originalLine = line) :
    FromLine line (insertSegment s segments) := by
  obtain ⟨⟨first, rest, rfl, hfirst⟩, hcomes⟩ := h
  have hle : first.generatedColumn ≤ s.generatedColumn := by
    rw [hfirst]
    exact UInt32.zero_le
  unfold SourceMap.insertSegment
  rw [List.takeWhile_cons_of_pos (by simpa using hle),
    List.dropWhile_cons_of_pos (by simpa using hle)]
  constructor
  · exact ⟨first, _, rfl, hfirst⟩
  · intro t ht
    rw [List.cons_append, List.mem_cons, List.mem_append, List.mem_cons] at ht
    rcases ht with rfl | ht | rfl | ht
    · exact hcomes t List.mem_cons_self
    · exact hcomes t (List.mem_cons_of_mem _ (List.takeWhile_subset _ ht))
    · exact hs
    · exact hcomes t (List.mem_cons_of_mem _ (List.dropWhile_subset _ ht))

/-- Every column of such a line has a segment. -/
theorem FromLine.exists_segmentAt? {line : UInt32} {segments : List Segment}
    (h : FromLine line segments) (column : UInt32) :
    ∃ s ∈ segments, segmentAt? column segments = some s := by
  obtain ⟨first, rest, rfl, hfirst⟩ := h.starts
  have hle : first.generatedColumn ≤ column := by
    rw [hfirst]
    exact UInt32.zero_le
  have hfront : (first :: rest).takeWhile (·.generatedColumn ≤ column) ≠ [] := by
    rw [List.takeWhile_cons_of_pos (by simpa using hle)]
    exact List.cons_ne_nil _ _
  exact ⟨_, List.takeWhile_subset _ (List.getLast_mem hfront), List.getLast?_eq_some_getLast hfront⟩

/-- A map that keeps lines sends every place of them to the same line of the source. -/
theorem KeepsLines.origin?_of_lt {m : SourceMap} {path : String} {count : Nat}
    (h : m.KeepsLines path count) {line : UInt32} (hline : line.toNat < count) (column : UInt32) :
    ∃ origin, m.origin? line column = some origin ∧ origin.source = path ∧ origin.line = line := by
  have hlt : line.toNat < m.lines.length := h.length ▸ hline
  have hget : m.lines[line.toNat]? = some m.lines[line.toNat] := List.getElem?_eq_getElem hlt
  have hfrom : FromLine line m.lines[line.toNat] := by
    simpa using h.follow _ _ hget
  obtain ⟨s, hs, hat⟩ := hfrom.exists_segmentAt? column
  obtain ⟨hsource, horiginal⟩ := hfrom.comes s hs
  have horigin : m.origin? line column = some ⟨path, s.originalLine, s.originalColumn,
      s.name.bind fun n => m.names[n.toNat]?⟩ := by
    simp [origin?, hget, hat, hsource, h.sources]
  exact ⟨_, horigin, rfl, horiginal⟩

/-- Behind its lines, a map has no origins. -/
theorem KeepsLines.origin?_of_le {m : SourceMap} {path : String} {count : Nat}
    (h : m.KeepsLines path count) {line : UInt32} (hline : count ≤ line.toNat) (column : UInt32) :
    m.origin? line column = none := by
  have hget : m.lines[line.toNat]? = none := List.getElem?_eq_none (h.length ▸ hline)
  simp [origin?, hget]

/-- The lines of a map that are made one by one from their numbers. -/
theorem keepsLines_ofLines_map {segmentsOf : Nat → List Segment}
    (h : ∀ line : Nat, FromLine line.toUInt32 (segmentsOf line)) (path content : String)
    (count : Nat) :
    (ofLines path content ((List.range count).map segmentsOf)).KeepsLines path count where
  sources := rfl
  length := by simp [ofLines]
  follow := by
    intro k segments hk
    rw [ofLines, List.getElem?_map] at hk
    obtain ⟨line, hline, rfl⟩ := Option.map_eq_some_iff.mp hk
    obtain ⟨_, rfl⟩ := List.getElem?_eq_some_iff.mp hline
    rw [List.getElem_range, Nat.zero_add]
    exact h k

end SourceMap

open SourceMap

/-- The map of an unchanged text keeps its lines. -/
theorem SourceMap.keepsLines_identity (path content : String) :
    (identity path content).KeepsLines path (Text.lines content.toList).length :=
  keepsLines_ofLines_map (fun _ => .singleton _ _) path content _

/-- Stripping types leaves every line to itself. -/
theorem map_of_stripTypes {source : String} {path : Path} {options : TransformOptions}
    {t : Transformed} (h : stripTypes source path options = .ok t) :
    t.map = .identity path.text source := by
  unfold stripTypes at h
  dsimp only at h
  split at h
  · cases h
  · split at h
    · cases h
    · cases h
      rfl

/-- The map of a module of a document is that of the document without what stands around it. -/
theorem JsonModule.map_of_transform {source : String} {path : Path} {t : Transformed}
    (h : transform source path = .ok t) :
    t.map = mapOf path.text source (Text.trimEnd (withoutMark source).toList) := by
  unfold transform at h
  dsimp only at h
  split at h
  · cases h
  · cases h
    rfl

/-- The map of a document has a line for each line of it. -/
theorem JsonModule.keepsLines_mapOf (path source : String) (body : List Char) :
    (mapOf path source body).KeepsLines path (Text.lines body).length := by
  refine keepsLines_ofLines_map (fun line => ?_) path source _
  split
  · subst line
    exact (FromLine.singleton 0 0).insertSegment ⟨rfl, rfl⟩
  · exact .singleton _ _

namespace DynamicImport

/-- The checks on a line are put behind its start. -/
theorem fromLine_segmentsOf (line : Nat) (columns : List Nat) :
    FromLine line.toUInt32 (segmentsOf line columns) := by
  unfold segmentsOf
  dsimp only
  refine List.foldlRecOn _ _ (.singleton _ _) fun segments hsegments s hs => ?_
  obtain ⟨⟨column, k⟩, -, hs⟩ := List.mem_flatMap.mp hs
  refine hsegments.insertSegment ?_
  rcases List.mem_cons.mp hs with rfl | hs
  · exact ⟨rfl, rfl⟩
  · obtain rfl := List.mem_singleton.mp hs
    exact ⟨rfl, rfl⟩

/-- There is a line of segments for every line of the text. -/
theorem length_segmentLines (line start : Nat) (ends : List Nat) (texts : List (List Char)) :
    (segmentLines line start ends texts).length = texts.length := by
  induction texts generalizing line start ends with
  | nil => rfl
  | cons text rest ih => simp [segmentLines, ih]

/-- Each line of segments comes from the line of the text with its number. -/
theorem followFrom_segmentLines (line start : Nat) (ends : List Nat) (texts : List (List Char)) :
    FollowFrom line (segmentLines line start ends texts) := by
  induction texts generalizing line start ends with
  | nil =>
    intro k segments hk
    simp [segmentLines] at hk
  | cons text rest ih =>
    intro k segments hk
    rw [segmentLines] at hk
    cases k with
    | zero =>
      obtain rfl := Option.some.inj hk
      exact fromLine_segmentsOf _ _
    | succ k =>
      rw [Nat.add_comm k 1, ← Nat.add_assoc]
      exact ih _ _ _ k segments hk

/-- The map of checked imports has a line for each line of the module. -/
theorem keepsLines_rewrite? {code : String} {path : Path} {dialect : Grammar.Dialect}
    {t : Transformed} (h : rewrite? code path dialect = some t) :
    t.map.KeepsLines path.text (Text.lines code.toList).length := by
  unfold rewrite? at h
  split at h
  · cases h
  · split at h
    · cases h
    · obtain rfl := Option.some.inj h
      exact ⟨rfl, length_segmentLines _ _ _ _, followFrom_segmentLines _ _ _ _⟩

end DynamicImport

namespace Load

variable {σ : Type} {s : Session} {next : Loader σ} {url : Url} {made : Made}

/-- The text whose lines what was made of a source keeps: the source, or the document in it. -/
def Made.keptText (made : Made) : List Char :=
  match made.transform with
  | .document => Text.trimEnd (JsonModule.withoutMark made.source).toList
  | .types | .imports => made.source.toList

/-- What was made of a source of a URL has a map that keeps the lines. -/
def Made.KeepsLines (url : Url) (made : Made) : Prop :=
  ∃ map, made.product.map? = some map ∧
    map.KeepsLines (locationOf url).text (Text.lines made.keptText).length

/-- What is made of a source where types are stripped, by the transform that makes it. -/
inductive MadeBy (s : Session) (url : Url) : Made → Prop
  | document {source t} : JsonModule.transform source (locationOf url) = .ok t →
      MadeBy s url ⟨.document, source, .ofTransformed t⟩
  | types {source t} : stripTypes source (locationOf url) (optionsFor s url) = .ok t →
      MadeBy s url ⟨.types, source, .ofTransformed t⟩
  | imports {source t} :
      DynamicImport.rewrite? source (locationOf url) (.ofPath (locationOf url)) = some t →
      MadeBy s url ⟨.imports, source, .ofTransformed t⟩

/-- What is made of a source is made by one of the three transforms. -/
theorem IsMade.madeBy (h : IsMade { session := s } url made) : MadeBy s url made := by
  obtain ⟨source, hmade | hmade⟩ := h
  · unfold transpiled at hmade
    dsimp only at hmade
    split at hmade
    · cases ht : JsonModule.transform source (locationOf url) with
      | error cause => simp [ht, Except.map, Except.mapError] at hmade
      | ok t =>
        obtain rfl : _ = made := by simpa [ht, Except.map, Except.mapError] using hmade
        exact .document ht
    · cases ht : stripTypes source (locationOf url) (optionsFor s url) with
      | error cause => simp [ht, Except.map, Except.mapError] at hmade
      | ok t =>
        obtain rfl : _ = made := by simpa [ht, Except.map, Except.mapError] using hmade
        exact .types ht
  · obtain ⟨t, ht, rfl⟩ := Option.map_eq_some_iff.mp hmade
    exact .imports ht

/-- Whatever is made of a source has a map that keeps the lines. -/
theorem MadeBy.keepsLines (h : MadeBy s url made) : made.KeepsLines url := by
  cases h with
  | document ht =>
    refine ⟨_, rfl, ?_⟩
    rw [JsonModule.map_of_transform ht]
    exact JsonModule.keepsLines_mapOf _ _ _
  | types ht =>
    refine ⟨_, rfl, ?_⟩
    rw [map_of_stripTypes ht]
    exact keepsLines_identity _ _
  | imports ht => exact ⟨_, rfl, DynamicImport.keepsLines_rewrite? ht⟩

/-- A call that makes something of a source succeeds, and registers a map by which every place of
the lines that were kept comes from the same line of the file, and no other place from anywhere. -/
theorem run_keeps_lines (s : Session) (next : Loader σ) (call : Call) (st : State σ)
    {returned : Returned} {made : Made}
    (h : (call.outcome { session := s } next st).1 = .ok (returned, some made)) :
    (call.run { session := s } next st).1 = .ok returned ∧ ∀ line column : UInt32,
      let origin? := (call.run { session := s } next st).2.maps.origin? call.url.text line column
      (line.toNat < (Text.lines made.keptText).length →
        ∃ origin, origin? = some origin ∧ origin.source = (locationOf call.url).text ∧
          origin.line = line) ∧
      ((Text.lines made.keptText).length ≤ line.toNat → origin? = none) := by
  obtain ⟨map, hmap, hkeeps⟩ := (Call.isMade_of_outcome h).madeBy.keepsLines
  have hregistered (line column : UInt32) :
      (call.run { session := s } next st).2.maps.origin? call.url.text line column =
        map.origin? line column := by
    rw [Call.run_eq, h]
    simp only [conclude, mapOf?, Option.bind_some, Product.mapFor?, hmap, Option.map_some,
      State.register, SourceMap.Registry.origin?, SourceMap.Registry.get?_set_self]
    rfl
  constructor
  · rw [Call.run_eq, h]
    rfl
  · intro line column
    dsimp only
    rw [hregistered]
    exact ⟨fun hline => hkeeps.origin?_of_lt hline column,
      fun hline => hkeeps.origin?_of_le hline column⟩

/-- A document of two lines with a mark before it and blank lines behind it. -/
def spaced : String := "\uFEFF[1,\r\n2]\r\n\n"

/-- Of a document with blank lines behind it, the lines that are kept have an origin and the others
have none. -/
theorem run_keeps_lines_spaced :
    let call : Call := .prepare spaced (rootFile "a.json") .json
    let setup : Setup := { session := rootSession }
    let st : State Unit := { host := () }
    let next := Loader.always {}
    ∃ returned made, (call.outcome setup next st).1 = .ok (returned, some made) ∧
      (call.run setup next st).1 = .ok returned ∧
      (∃ origin, (call.run setup next st).2.maps.origin? call.url.text 1 7 = some origin ∧
        origin.source = (locationOf call.url).text ∧ origin.line = 1) ∧
      (call.run setup next st).2.maps.origin? call.url.text 2 0 = none := by
  have hcount : (transpiled { session := rootSession } (rootFile "a.json") spaced).toOption.map
      (fun made => (Text.lines made.keptText).length) = some 2 := by
    decide +kernel
  obtain ⟨made, hmade, hlength⟩ := Option.map_eq_some_iff.mp hcount
  have hoption : transpiled { session := rootSession } (rootFile "a.json") spaced = .ok made := by
    cases htranspiled : transpiled { session := rootSession } (rootFile "a.json") spaced with
    | error fault => simp [htranspiled, Except.toOption] at hmade
    | ok other => simpa [htranspiled, Except.toOption] using hmade
  have houtcome : ((Call.prepare spaced (rootFile "a.json") .json).outcome
      { session := rootSession } (Loader.always {}) ({ host := () } : State Unit)).1 =
      .ok (.source (codeOf rootSession (rootFile "a.json") spaced (some made)), some made) := by
    rw [Call.outcome, preparedSource, madeOf, hoption]
    rfl
  obtain ⟨hreturned, horigins⟩ := run_keeps_lines rootSession (Loader.always {}) _ _ houtcome
  refine ⟨_, made, houtcome, hreturned, ?_, ?_⟩
  · exact (horigins 1 7).1 (by rw [hlength]; decide)
  · exact (horigins 2 0).2 (by rw [hlength]; decide)

end Load

end ScriptModules

import ScriptModules.Proofs.Except
import ScriptModules.Proofs.SourceMap.Columns
import ScriptModules.Proofs.SourceMap.Composition
import ScriptModules.Proofs.SourceMap.Insertions

/-!
# How maps were made

However a map is made, the segments of its lines were inserted one after the other: those of a text
in the order of the text, those of a composition in the order of the later map. So every line is in
order, and a place belongs to the segment that was inserted last among those with the greatest
column up to it.
-/

namespace ScriptModules.SourceMap

variable {m later earlier : SourceMap} {log : List (Nat × Segment)}

/-- The segments that were inserted into a line, of all that were inserted. -/
def insertedAt (line : Nat) (log : List (Nat × Segment)) : List Segment :=
  (log.filter (·.1 == line)).map Prod.snd

/-- The segments of some lines with the numbers of their lines, one line after the other. -/
def numbered (lines : List (List Segment)) : List (Nat × Segment) :=
  lines.zipIdx.flatMap fun (segments, line) => segments.map (line, ·)

/-- The segments that a mappings text is read as, line by line, in the order of the text. -/
def textSegments (f : Fields) : List (List Char) → List (List Segment)
  | [] => []
  | group :: rest =>
    let f : Fields := { f with generatedColumn := 0 }
    let quantities := (lineQuantities? group).getD []
    readSegments f quantities :: textSegments (fieldsAfter f quantities) rest

/-- The segment that following a segment adds to a composition, if any. -/
def followed? (earlier composed : SourceMap) (s : Segment) : Option Segment :=
  (earlier.origin? s.originalLine s.originalColumn).map fun o =>
    ⟨s.generatedColumn, (composed.addSource o.source (earlier.contentOf? o.source)).2, o.line,
      o.column, none⟩

/-- What following segments one after the other adds to a composition, in this order. -/
def followedAll (earlier : SourceMap) : SourceMap → List (Nat × Segment) → List (Nat × Segment)
  | _, [] => []
  | composed, (line, s) :: rest =>
    ((followed? earlier composed s).map (line, ·)).toList ++
      followedAll earlier (follow earlier composed line s) rest

/-- The maps that can be made, each with the segments that were inserted into its lines, in the
order in which they were. -/
inductive History : List (Nat × Segment) → SourceMap → Prop
  | empty : History [] {}
  | identity (path source : String) :
      History (numbered ((List.range (Text.lines source.toList).length).map fun line =>
        [⟨0, 0, line.toUInt32, 0, none⟩])) (identity path source)
  | addSource {log : List (Nat × Segment)} {m : SourceMap} (path : String)
      (content : Option String) : History log m → History log (m.addSource path content).1
  | add {log : List (Nat × Segment)} {m : SourceMap}
      (line column source originalLine originalColumn : UInt32) :
      History log m →
      History (log ++ [(line.toNat, ⟨column, source, originalLine, originalColumn, none⟩)])
        (m.add line.toNat ⟨column, source, originalLine, originalColumn, none⟩)
  | file {log : List (Nat × Segment)} {m : SourceMap} (name : Option String) :
      History log m → History log { m with file := name }
  | compose {log log' : List (Nat × Segment)} {later earlier : SourceMap} :
      History log later → History log' earlier →
      History (followedAll earlier { file := later.file } (numbered later.lines))
        (later.compose earlier)
  | ofJson {text : String} {d : Document} {m : SourceMap} :
      Document.parse text = .ok d → ofJson text = .ok m →
      History (numbered (textSegments {} (Text.splitAt ';' d.mappings.toList))) m

/-- A map whose lines are made by inserting segments one after the other. -/
def MadeBy (log : List (Nat × Segment)) (m : SourceMap) : Prop :=
  ∀ line, m.row line = inserted (insertedAt line log)

/-- What was inserted into a line was inserted in two parts. -/
theorem insertedAt_append (line : Nat) (log log' : List (Nat × Segment)) :
    insertedAt line (log ++ log') = insertedAt line log ++ insertedAt line log' := by
  rw [insertedAt, List.filter_append, List.map_append]
  rfl

/-- Segments of one line were all inserted into it. -/
theorem insertedAt_map (line k : Nat) (segments : List Segment) :
    insertedAt line (segments.map (k, ·)) = if line = k then segments else [] := by
  induction segments with
  | nil => simp [insertedAt]
  | cons s rest ih =>
    rw [List.map_cons, ← List.singleton_append, insertedAt_append, ih]
    by_cases h : line = k
    · simp [insertedAt, h]
    · simp [insertedAt, h, Ne.symm h]

/-- The segments of each line are those with its number. -/
theorem insertedAt_numbered (lines : List (List Segment)) (line : Nat) :
    insertedAt line (numbered lines) = (lines[line]?).getD [] := by
  have hfrom (first : Nat) : insertedAt line ((lines.zipIdx first).flatMap fun (segments, line) =>
      segments.map (line, ·)) = if first ≤ line then (lines[line - first]?).getD [] else [] := by
    induction lines generalizing first with
    | nil => simp [insertedAt]
    | cons segments rest ih =>
      rw [List.zipIdx_cons, List.flatMap_cons, insertedAt_append, insertedAt_map, ih]
      rcases Nat.lt_trichotomy line first with hlt | rfl | hlt
      · rw [if_neg (by omega), if_neg (by omega), if_neg (by omega), List.append_nil]
      · rw [if_pos rfl, if_neg (by omega), if_pos le_rfl, Nat.sub_self, List.append_nil]
        rfl
      · obtain ⟨n, rfl⟩ : ∃ n, line = first + 1 + n := ⟨line - (first + 1), by omega⟩
        rw [if_neg (by omega), if_pos (by omega), if_pos (by omega), List.nil_append,
          Nat.add_sub_cancel_left, show first + 1 + n - first = n + 1 by omega,
          List.getElem?_cons_succ]
  have hzero := hfrom 0
  rwa [if_pos (Nat.zero_le line), Nat.sub_zero] at hzero

/-- A map with the lines of some segments is made by inserting these line by line. -/
theorem madeBy_numbered {lines : List (List Segment)} (h : m.lines = lines.map inserted) :
    MadeBy (numbered lines) m := by
  intro line
  rw [insertedAt_numbered, row, h, List.getElem?_map]
  cases lines[line]? <;> rfl

/-- To add a segment is to insert one more. -/
theorem MadeBy.add (h : MadeBy log m) (line : Nat) (s : Segment) :
    MadeBy (log ++ [(line, s)]) (m.add line s) := by
  intro k
  have hone : insertedAt k [(line, s)] = if k = line then [s] else [] :=
    insertedAt_map k line [s]
  rw [row_add, insertedAt_append, hone]
  split
  · rename_i hk
    rw [inserted_concat, ← h k, hk]
  · rw [List.append_nil, h k]

/-- What leaves the lines as they are inserts nothing. -/
theorem MadeBy.of_lines {m' : SourceMap} (h : MadeBy log m) (hlines : m'.lines = m.lines) :
    MadeBy log m' := by
  intro line
  rw [← h line, row, row, hlines]

/-- To follow a segment is to insert what it adds. -/
theorem MadeBy.follow (h : MadeBy log m) (earlier : SourceMap) (line : Nat) (s : Segment) :
    MadeBy (log ++ ((followed? earlier m s).map (line, ·)).toList) (follow earlier m line s) := by
  unfold SourceMap.follow followed?
  cases ho : earlier.origin? s.originalLine s.originalColumn with
  | none => simpa using h
  | some o => exact (h.of_lines (lines_addSource m o.source (earlier.contentOf? o.source))).add _ _

/-- To follow segments is to insert what each of them adds. -/
theorem MadeBy.followAll (h : MadeBy log m) (earlier : SourceMap)
    (segments : List (Nat × Segment)) :
    MadeBy (log ++ followedAll earlier m segments)
      (segments.foldl (fun composed (line, s) => SourceMap.follow earlier composed line s) m) := by
  induction segments generalizing log m with
  | nil => simpa [followedAll] using h
  | cons first rest ih =>
    obtain ⟨line, s⟩ := first
    rw [followedAll, ← List.append_assoc]
    exact ih (h.follow earlier line s)

/-- A composition follows the segments of the later map one after the other. -/
theorem compose_eq_foldl (later earlier : SourceMap) :
    later.compose earlier = (numbered later.lines).foldl
      (fun composed (line, s) => follow earlier composed line s) { file := later.file } := by
  rw [numbered, List.foldl_flatMap, compose]
  simp only [List.foldl_map]

/-- An empty map is made by inserting nothing. -/
theorem madeBy_empty (file : Option String) : MadeBy [] { file := file } := fun _ => rfl

/-- What is read from a text is inserted in the order of the text. -/
theorem lines_of_decodeLines {f : Fields} {offset : Nat} {groups : List (List Char)}
    {lines : List (List Segment)} (h : decodeLines f offset groups = .ok lines) :
    lines = (textSegments f groups).map inserted := by
  induction groups generalizing f offset lines with
  | nil =>
    simp only [decodeLines, Except.ok.injEq] at h
    exact h.symm
  | cons group rest ih =>
    obtain ⟨⟨g, offset', line⟩, hline, h⟩ := exists_of_bind_eq_ok h
    obtain ⟨more, hmore, h⟩ := exists_of_bind_eq_ok h
    obtain ⟨quantities, hquantities, -, hinserted, hfields⟩ := decodeLine_eq hline
    obtain rfl := Except.ok.inj h
    have hread : (lineQuantities? group).getD [] = quantities := by
      rw [lineQuantities?, hquantities, Option.getD_some]
    rw [textSegments]
    simp only [hread, List.map_cons]
    rw [← hfields, ← ih hmore, hinserted]
    rfl

/-- The lines of every map that can be made were made by insertions. -/
theorem History.madeBy (h : History log m) : MadeBy log m := by
  induction h with
  | empty => exact madeBy_empty none
  | identity path source =>
    refine madeBy_numbered ?_
    rw [List.map_map]
    rfl
  | addSource path content _ ih => exact ih.of_lines (lines_addSource _ path content)
  | add line column source originalLine originalColumn _ ih => exact ih.add _ _
  | file name _ ih => exact ih.of_lines rfl
  | compose _ _ _ _ =>
    rw [compose_eq_foldl]
    exact (madeBy_empty _).followAll _ _
  | ofJson hd h => exact madeBy_numbered (lines_of_decodeLines (linesOf_of_ofJson hd h))

/-- A line of inserted segments, in the order of their columns and at one column in the order of
their insertion; halving finds every place at which one is inserted. -/
structure Line (segments line : List Segment) : Prop where
  sorted : Sorted line
  stable : ∀ column, line.filter (·.generatedColumn = column) =
    segments.filter (·.generatedColumn = column)
  halved : line = segments.foldl (fun line s => insertAtCut s line) []

/-- A line of inserted segments is as all of them are. -/
theorem line_inserted (segments : List Segment) : Line segments (inserted segments) :=
  ⟨sorted_inserted segments, filter_inserted segments, (foldl_insertAtCut segments).symm⟩

/-- A place belongs to the latest segment of its line. -/
theorem MadeBy.origin?_of_isLatest (h : MadeBy log m) {line column : UInt32} {s : Segment}
    (hs : IsLatest column (insertedAt line.toNat log) s) :
    m.origin? line column = m.originOf? s := by
  rw [origin?_eq, h]
  cases hat : segmentAt? column (inserted (insertedAt line.toNat log)) with
  | none =>
    obtain ⟨before, after, hsegments, -⟩ := hs.latest
    have hbehind := segmentAt?_inserted_eq_none_iff.mp hat s (by simp [hsegments])
    exact absurd hs.le (UInt32.not_le.mpr hbehind)
  | some t => rw [Option.bind_some, (isLatest_of_segmentAt? hat).unique hs]

/-- A segment has no origin if its source is not listed. -/
theorem originOf?_eq_none_iff {s : Segment} :
    m.originOf? s = none ↔ m.sources.length ≤ s.source.toNat := by
  rw [originOf?, Option.map_eq_none_iff, List.getElem?_eq_none_iff]

/-- A place has no origin where no segment starts at its column or before, or where the latest has a
source that is not listed. -/
theorem MadeBy.origin?_eq_none_iff (h : MadeBy log m) (line column : UInt32) :
    m.origin? line column = none ↔
      (∀ s ∈ insertedAt line.toNat log, column < s.generatedColumn) ∨
      ∃ s, IsLatest column (insertedAt line.toNat log) s ∧
        m.sources.length ≤ s.source.toNat := by
  cases hat : segmentAt? column (inserted (insertedAt line.toNat log)) with
  | none =>
    have hnone := segmentAt?_inserted_eq_none_iff.mp hat
    have horigin : m.origin? line column = none := by rw [origin?_eq, h, hat, Option.bind_none]
    exact ⟨fun _ => Or.inl hnone, fun _ => horigin⟩
  | some s =>
    have hs := isLatest_of_segmentAt? hat
    have hsome : ¬ ∀ t ∈ insertedAt line.toNat log, column < t.generatedColumn := by
      rw [← segmentAt?_inserted_eq_none_iff, hat]
      exact Option.some_ne_none s
    rw [h.origin?_of_isLatest hs, originOf?_eq_none_iff]
    refine ⟨fun hlisted => Or.inr ⟨s, hs, hlisted⟩, fun hnone => ?_⟩
    obtain ⟨t, ht, hlisted⟩ := hnone.resolve_left hsome
    rwa [hs.unique ht]

/-- The lines of every map that can be made are in order, with the segments of one column in the
order of their insertion. A place belongs to the segment that was inserted last among those with the
greatest column up to it, which halving finds. It has no origin if there is no such segment or the
source of that segment is not listed. -/
theorem History.origin?_latest (h : History log m) :
    (∀ line, Line (insertedAt line log) (m.row line)) ∧
    ∀ line column : UInt32,
      m.origin? line column = (beforeCut? column (m.row line.toNat)).bind m.originOf? ∧
      (∀ s, IsLatest column (insertedAt line.toNat log) s →
        m.origin? line column = m.originOf? s) ∧
      (m.origin? line column = none ↔
        (∀ s ∈ insertedAt line.toNat log, column < s.generatedColumn) ∨
        ∃ s, IsLatest column (insertedAt line.toNat log) s ∧
          m.sources.length ≤ s.source.toNat) := by
  have hmade := h.madeBy
  have hline (line : Nat) : Line (insertedAt line log) (m.row line) := by
    rw [hmade line]
    exact line_inserted _
  refine ⟨hline, fun line column => ⟨?_, fun s hs => hmade.origin?_of_isLatest hs,
    hmade.origin?_eq_none_iff line column⟩⟩
  rw [(hline line.toNat).sorted.beforeCut?_eq, origin?_eq]

/-- A document whose segments go back, the last of them to a column before the first. -/
def backward : String :=
  "\x7b\"version\":3,\"sources\":[\"a.ts\"],\"mappings\":\"KAAA,FACA,FAAA,FAAA\"\x7d"

/-- The map that is read from it. -/
def backwardMap : SourceMap :=
  { sources := ["a.ts"], contents := [none], lines :=
    [[⟨1, 0, 1, 0, none⟩, ⟨3, 0, 1, 0, none⟩, ⟨5, 0, 0, 0, none⟩, ⟨4294967295, 0, 1, 0, none⟩]] }

/-- The document is read with its mappings. -/
theorem parse_backward :
    Document.parse backward = .ok ⟨3, none, ["a.ts"], [], [], "KAAA,FACA,FAAA,FAAA"⟩ := by
  decide +kernel

/-- The document is read as the map. -/
theorem ofJson_backward : ofJson backward = .ok backwardMap := by
  rw [ofJson, parse_backward]
  decide +kernel

/-- A segment that is added behind another of its column takes the place of that one, also when its
source is not listed. -/
theorem History.origin?_latest_backward :
    ∃ log, History log (backwardMap.add (0 : UInt32).toNat ⟨3, 7, 0, 0, none⟩) ∧
      insertedAt 0 log = [⟨5, 0, 0, 0, none⟩, ⟨3, 0, 1, 0, none⟩, ⟨1, 0, 1, 0, none⟩,
        ⟨4294967295, 0, 1, 0, none⟩, ⟨3, 7, 0, 0, none⟩] ∧
      Line (insertedAt 0 log)
        ((backwardMap.add (0 : UInt32).toNat ⟨3, 7, 0, 0, none⟩).row 0) ∧
      (backwardMap.add (0 : UInt32).toNat ⟨3, 7, 0, 0, none⟩).origin? 0 4 = none := by
  have h := (History.ofJson parse_backward ofJson_backward).add 0 3 7 0 0
  have hlog : insertedAt 0 (numbered (textSegments {}
      (Text.splitAt ';' "KAAA,FACA,FAAA,FAAA".toList)) ++
        [((0 : UInt32).toNat, ⟨3, 7, 0, 0, none⟩)]) =
      [⟨5, 0, 0, 0, none⟩, ⟨3, 0, 1, 0, none⟩, ⟨1, 0, 1, 0, none⟩,
        ⟨4294967295, 0, 1, 0, none⟩, ⟨3, 7, 0, 0, none⟩] := by
    decide +kernel
  have hlatest : IsLatest 4 _ ⟨3, 7, 0, 0, none⟩ :=
    ⟨by decide, [⟨5, 0, 0, 0, none⟩, ⟨3, 0, 1, 0, none⟩, ⟨1, 0, 1, 0, none⟩,
      ⟨4294967295, 0, 1, 0, none⟩], [], hlog, by decide, by simp⟩
  exact ⟨_, h, hlog, h.origin?_latest.1 0,
    (h.origin?_latest.2 0 4).2.2.mpr (Or.inr ⟨_, hlatest, by decide⟩)⟩

end ScriptModules.SourceMap

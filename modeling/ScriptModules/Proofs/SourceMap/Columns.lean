import Mathlib.Data.List.Forall2
import ScriptModules.Proofs.SourceMap.Order

/-!
# Generated columns of a mappings text

The first field of a segment tells how far its generated column is behind that of the segment
before it on the line. The format counts a segment of a single field like any other, although it
maps nothing. Reading passes over such a segment altogether, so the columns after it are those of
the format only where the segments that were passed over move nothing together.
-/

namespace ScriptModules.SourceMap

/-- The segments of a line as lists of quantities, in the order of the text. An empty piece between
separators is no segment. -/
def lineQuantities? (group : List Char) : Option (List (List Int)) :=
  ((Text.splitAt ',' group).filter (!·.isEmpty)).mapM fun field =>
    (decodeQuantities 0 0 0 field).toOption

/-- A segment that has an origin. -/
def isMapped (values : List Int) : Bool := 1 < values.length

/-- What the segments of a line are read as, in the order of the text. -/
def readSegments (f : Fields) : List (List Int) → List Segment
  | [] => []
  | values :: rest =>
    match f.step 0 values with
    | .ok (g, segment?) => segment?.toList ++ readSegments g rest
    | .error _ => []

/-- The fields after some segments. -/
def fieldsAfter (f : Fields) : List (List Int) → Fields
  | [] => f
  | values :: rest =>
    match f.step 0 values with
    | .ok (g, _) => fieldsAfter g rest
    | .error _ => f

/-- Each mapped segment of a line, with all segments from the start of the line up to it. -/
def frontsFrom (front : List (List Int)) : List (List Int) → List (List (List Int))
  | [] => []
  | values :: rest =>
    let upto := front ++ [values]
    if isMapped values then upto :: frontsFrom upto rest else frontsFrom upto rest

/-- The sum of the first fields of some segments. -/
def firstFields : List (List Int) → Int
  | [] => 0
  | values :: rest => values.headD 0 + firstFields rest

/-- The column that the format gives to the last of some segments of a line. -/
def formatColumn (front : List (List Int)) : UInt32 := word32 (firstFields front)

/-- The column that reading gives to the last of some segments of a line. -/
def readColumn (front : List (List Int)) : UInt32 := word32 (firstFields (front.filter isMapped))

/-- A line that holds the segments of its text, read one after the other and put in the order of
their columns, where `column` gives the column of each by the segments up to it. -/
def ColumnsBy (column : List (List Int) → UInt32) (group : List Char) (line : List Segment) :
    Prop :=
  ∃ (quantities : List (List Int)) (f : Fields),
    lineQuantities? group = some quantities ∧ f.generatedColumn = 0 ∧
    line = (readSegments f quantities).foldl (fun line s => insertSegment s line) [] ∧
    (readSegments f quantities).map (·.generatedColumn) = (frontsFrom [] quantities).map column

/-- A line whose segments of a single field leave the columns after them as they are: together,
those before a mapped segment move it by a multiple of 2 ^ 32. -/
def Unmoved (group : List Char) : Prop :=
  ∀ quantities, lineQuantities? group = some quantities →
    ∀ front ∈ frontsFrom [] quantities, word32 (firstFields (front.filter (!isMapped ·))) = 0

/-- The offset of a segment matters for faults only. -/
theorem decodeQuantities_offset {offset word shift : Nat} {cs : List Char} {values : List Int}
    (h : decodeQuantities offset word shift cs = .ok values) (offset' : Nat) :
    decodeQuantities offset' word shift cs = .ok values := by
  induction cs generalizing offset offset' word shift values with
  | nil =>
    simp only [decodeQuantities] at h ⊢
    split at h
    · rwa [if_pos ‹_›]
    · cases h
  | cons c rest ih =>
    simp only [decodeQuantities] at h ⊢
    cases hdigit : Text.Base64.value? c with
    | none => simp [hdigit] at h
    | some d =>
      simp only [hdigit] at h ⊢
      split at h
      · cases hmore : decodeQuantities (offset + 1) 0 0 rest with
        | error e => simp [hmore, bind, Except.bind] at h
        | ok more =>
          rw [if_pos ‹_›, ih hmore (offset' + 1)]
          simpa [hmore, bind, Except.bind] using h
      · rw [if_neg ‹_›]
        split at h
        · cases h
        · rw [if_neg ‹_›]
          exact ih h _

/-- A segment of one, four or five fields. -/
def IsSegment (values : List Int) : Prop :=
  values.length = 1 ∨ values.length = 4 ∨ values.length = 5

/-- Only a segment of one, four or five fields can be read, and where it stands does not matter for
that. -/
theorem Fields.isSegment_of_step {f g : Fields} {offset : Nat} {values : List Int}
    {segment? : Option Segment} (h : f.step offset values = .ok (g, segment?)) :
    IsSegment values ∧ f.step 0 values = .ok (g, segment?) := by
  unfold Fields.step at h
  split at h
  case h_1 => exact ⟨Or.inl rfl, h⟩
  case h_2 => exact ⟨Or.inr (Or.inl rfl), h⟩
  case h_3 => exact ⟨Or.inr (Or.inr rfl), h⟩
  case h_4 => cases h

/-- A segment of one field leaves all fields as they are. Any other moves the generated column on
by its first field and starts there. -/
theorem IsSegment.step {values : List Int} (h : IsSegment values) (f : Fields) :
    isMapped values = false ∧ f.step 0 values = .ok (f, none) ∨
      isMapped values = true ∧ ∃ g s, f.step 0 values = .ok (g, some s) ∧
        g.generatedColumn = f.generatedColumn + values.headD 0 ∧
        s.generatedColumn = word32 g.generatedColumn := by
  match values, h with
  | [_], _ => exact Or.inl ⟨rfl, rfl⟩
  | [_, _, _, _], _ => exact Or.inr ⟨rfl, _, _, rfl, rfl, rfl⟩
  | [_, _, _, _, _], _ => exact Or.inr ⟨rfl, _, _, rfl, rfl, rfl⟩
  | [], h => simp [IsSegment] at h
  | [_, _], h => simp [IsSegment] at h
  | [_, _, _], h => simp [IsSegment] at h
  | _ :: _ :: _ :: _ :: _ :: _ :: _, h => simp [IsSegment] at h

/-- First fields add up over segments. -/
theorem firstFields_append (front more : List (List Int)) :
    firstFields (front ++ more) = firstFields front + firstFields more := by
  induction front with
  | nil => exact (Int.zero_add _).symm
  | cons values rest ih => rw [List.cons_append, firstFields, firstFields, ih, Int.add_assoc]

/-- Segments are read at the columns of the mapped ones alone. `front` holds the segments before
them on the line. -/
theorem generatedColumns_readSegments {quantities : List (List Int)}
    (h : ∀ values ∈ quantities, IsSegment values) {f : Fields} {front : List (List Int)}
    (hfront : f.generatedColumn = firstFields (front.filter isMapped)) :
    (readSegments f quantities).map (·.generatedColumn) =
      (frontsFrom front quantities).map readColumn := by
  induction quantities generalizing f front with
  | nil => rfl
  | cons values rest ih =>
    have hrest : ∀ values ∈ rest, IsSegment values :=
      fun values hvalues => h values (List.mem_cons_of_mem _ hvalues)
    have hupto : firstFields ((front ++ [values]).filter isMapped) =
        f.generatedColumn + firstFields ([values].filter isMapped) := by
      rw [List.filter_append, firstFields_append, hfront]
    rw [readSegments, frontsFrom]
    rcases (h values List.mem_cons_self).step f with
      ⟨hunmapped, hstep⟩ | ⟨hmapped, g, s, hstep, hmoved, hs⟩
    · have hstay : f.generatedColumn = firstFields ((front ++ [values]).filter isMapped) := by
        rw [hupto]
        simp [hunmapped, firstFields]
      rw [hstep, if_neg (by simp [hunmapped])]
      exact ih hrest hstay
    · have hnext : g.generatedColumn = firstFields ((front ++ [values]).filter isMapped) := by
        rw [hupto, hmoved]
        simp [hmapped, firstFields]
      rw [hstep, if_pos hmapped, List.map_cons, readColumn, ← hnext, ← hs, ← ih hrest hnext]
      rfl

/-- A line that was read holds the segments of its text, and the fields go on behind them. -/
theorem decodeLine_eq {f g : Fields} {offset offset' : Nat} {line line' : List Segment}
    {fields : List (List Char)} (h : decodeLine f offset line fields = .ok (g, offset', line')) :
    ∃ quantities, fields.mapM (fun field => (decodeQuantities 0 0 0 field).toOption) =
        some quantities ∧ (∀ values ∈ quantities, IsSegment values) ∧
      line' = (readSegments f quantities).foldl (fun line s => insertSegment s line) line ∧
      g = fieldsAfter f quantities := by
  induction fields generalizing f offset line with
  | nil =>
    simp only [decodeLine, Except.ok.injEq, Prod.mk.injEq] at h
    exact ⟨[], rfl, by simp, h.2.2.symm, h.1.symm⟩
  | cons field rest ih =>
    simp only [decodeLine] at h
    cases hvalues : decodeQuantities offset 0 0 field with
    | error e => simp [hvalues, bind, Except.bind] at h
    | ok values =>
      cases hstep : f.step (offset + field.length + 1) values with
      | error e => simp [hvalues, hstep, bind, Except.bind] at h
      | ok pair =>
        obtain ⟨f', segment?⟩ := pair
        simp only [hvalues, hstep, bind, Except.bind] at h
        obtain ⟨quantities, hquantities, hall, hline, hfields⟩ := ih h
        obtain ⟨hsegment, hstart⟩ := Fields.isSegment_of_step hstep
        refine ⟨values :: quantities, ?_, List.forall_mem_cons.mpr ⟨hsegment, hall⟩, ?_, ?_⟩
        · rw [List.mapM_cons, decodeQuantities_offset hvalues 0, hquantities]
          rfl
        · rw [readSegments, hstart, List.foldl_append, hline]
          cases segment? <;> rfl
        · rw [fieldsAfter, hstart, hfields]

/-- A number moves a column just when it is no multiple of 2 ^ 32. -/
theorem word32_eq_word32_add_iff (m n : Int) : word32 m = word32 (m + n) ↔ word32 n = 0 := by
  have htoNat (n : Int) : (word32 n).toNat = (n % 4294967296).toNat := by
    change ((n % 4294967296).toNat.toUInt32).toNat = _
    rw [Nat.toUInt32_eq, UInt32.toNat_ofNat']
    omega
  rw [← UInt32.toNat_inj, ← UInt32.toNat_inj, htoNat, htoNat, htoNat, UInt32.toNat_zero]
  omega

/-- The two columns of a segment differ by what the segments of a single field before it move. -/
theorem readColumn_eq_formatColumn_iff (front : List (List Int)) :
    readColumn front = formatColumn front ↔
      word32 (firstFields (front.filter (!isMapped ·))) = 0 := by
  have hsum : firstFields front =
      firstFields (front.filter isMapped) + firstFields (front.filter (!isMapped ·)) := by
    induction front with
    | nil => rfl
    | cons values rest ih =>
      cases hmapped : isMapped values with
      | true =>
        rw [List.filter_cons_of_pos hmapped, List.filter_cons_of_neg (by simp [hmapped]),
          firstFields, firstFields, ih, Int.add_assoc]
      | false =>
        rw [List.filter_cons_of_neg (by simp [hmapped]),
          List.filter_cons_of_pos (by simp [hmapped]), firstFields, firstFields, ih,
          Int.add_left_comm]
  rw [readColumn, formatColumn, hsum, word32_eq_word32_add_iff]

/-- A line that was read has the columns of its mapped segments alone, and those of the format just
when its segments of a single field leave the columns as they are. -/
theorem columnsBy_of_decodeLine {f g : Fields} (hf : f.generatedColumn = 0) {offset offset' : Nat}
    {group : List Char} {line : List Segment} (h : decodeLine f offset []
      ((Text.splitAt ',' group).filter (!·.isEmpty)) = .ok (g, offset', line)) :
    ColumnsBy readColumn group line ∧ (ColumnsBy formatColumn group line ↔ Unmoved group) := by
  obtain ⟨quantities, hquantities, hall, hline, -⟩ := decodeLine_eq h
  have hcolumns {f : Fields} (hf : f.generatedColumn = 0) :
      (readSegments f quantities).map (·.generatedColumn) =
        (frontsFrom [] quantities).map readColumn :=
    generatedColumns_readSegments hall (by simpa [firstFields] using hf)
  refine ⟨⟨quantities, f, hquantities, hf, hline, hcolumns hf⟩, ?_, fun hunmoved => ?_⟩
  · rintro ⟨quantities', f', hquantities', hf', -, hformat⟩ quantities'' hquantities'' front hfront
    obtain rfl := Option.some.inj (hquantities.symm.trans hquantities')
    obtain rfl := Option.some.inj (hquantities.symm.trans hquantities'')
    rw [← readColumn_eq_formatColumn_iff]
    exact List.map_inj_left.mp ((hcolumns hf').symm.trans hformat) front hfront
  · refine ⟨quantities, f, hquantities, hf, hline,
      (hcolumns hf).trans (List.map_congr_left fun front hfront => ?_)⟩
    rw [readColumn_eq_formatColumn_iff]
    exact hunmoved quantities hquantities front hfront

/-- Lines that were read have the columns of their mapped segments alone, and those of the format
just when the segments of a single field leave the columns of every line as they are. -/
theorem columnsBy_of_decodeLines {f : Fields} {offset : Nat} {groups : List (List Char)}
    {lines : List (List Segment)} (h : decodeLines f offset groups = .ok lines) :
    List.Forall₂ (ColumnsBy readColumn) groups lines ∧
      (List.Forall₂ (ColumnsBy formatColumn) groups lines ↔ ∀ group ∈ groups, Unmoved group) := by
  induction groups generalizing f offset lines with
  | nil =>
    simp only [decodeLines, Except.ok.injEq] at h
    simp [← h]
  | cons group rest ih =>
    simp only [decodeLines] at h
    cases hline : decodeLine { f with generatedColumn := 0 } offset []
        ((Text.splitAt ',' group).filter (!·.isEmpty)) with
    | error e => simp [hline, bind, Except.bind] at h
    | ok triple =>
      obtain ⟨g, offset', line⟩ := triple
      cases hmore : decodeLines g (offset' + 1) rest with
      | error e => simp [hline, hmore, bind, Except.bind] at h
      | ok more =>
        simp only [hline, hmore, bind, Except.bind, pure, Except.pure, Except.ok.injEq] at h
        obtain ⟨hread, hformat⟩ := columnsBy_of_decodeLine rfl hline
        obtain ⟨hreads, hformats⟩ := ih hmore
        subst h
        exact ⟨.cons hread hreads, by
          rw [List.forall₂_cons, hformat, hformats, List.forall_mem_cons]⟩

/-- The lines of a map are those of the mappings in its document. -/
theorem linesOf_of_ofJson {json : String} {d : Document} {m : SourceMap}
    (hd : Document.parse json = .ok d) (h : ofJson json = .ok m) :
    linesOf d.mappings = .ok m.lines := by
  rw [ofJson, hd] at h
  simp only [Document.toMap] at h
  split at h
  · cases h
  · split at h
    · cases h
    · rename_i lines hlines
      obtain rfl := Except.ok.inj h
      exact hlines

/-- The lines of a map that was read have the columns of their mapped segments alone. They have the
columns of the format just when the segments of a single field leave the columns of every line as
they are. -/
theorem forall₂_columnsBy_iff {json : String} {d : Document} {m : SourceMap}
    (hd : Document.parse json = .ok d) (h : ofJson json = .ok m) :
    List.Forall₂ (ColumnsBy readColumn) (Text.splitAt ';' d.mappings.toList) m.lines ∧
      (List.Forall₂ (ColumnsBy formatColumn) (Text.splitAt ';' d.mappings.toList) m.lines ↔
        ∀ group ∈ Text.splitAt ';' d.mappings.toList, Unmoved group) :=
  columnsBy_of_decodeLines (linesOf_of_ofJson hd h)

/-- A document with a segment of a single field on its second line, between two others. -/
def interrupted : String :=
  "\x7b\"version\":3,\"sources\":[\"a.ts\"],\"mappings\":\"AAAA;EAAC,G,CACAA\"\x7d"

/-- The map that is read from it. -/
def interruptedMap : SourceMap :=
  { sources := ["a.ts"], contents := [none], lines :=
    [[⟨0, 0, 0, 0, none⟩], [⟨2, 0, 0, 1, none⟩, ⟨3, 0, 1, 1, some 0⟩]] }

/-- The document is read with its mappings. -/
theorem parse_interrupted :
    Document.parse interrupted = .ok ⟨3, none, ["a.ts"], [], [], "AAAA;EAAC,G,CACAA"⟩ := by
  decide +kernel

/-- The document is read as the map. -/
theorem ofJson_interrupted : ofJson interrupted = .ok interruptedMap := by
  rw [ofJson, parse_interrupted]
  decide +kernel

/-- The second line of the document is moved, so that its columns are not those of the format. -/
theorem forall₂_columnsBy_interrupted :
    ∃ d, Document.parse interrupted = .ok d ∧ ofJson interrupted = .ok interruptedMap ∧
      List.Forall₂ (ColumnsBy readColumn) (Text.splitAt ';' d.mappings.toList)
        interruptedMap.lines ∧
      (List.Forall₂ (ColumnsBy formatColumn) (Text.splitAt ';' d.mappings.toList)
          interruptedMap.lines ↔
        ∀ group ∈ Text.splitAt ';' d.mappings.toList, Unmoved group) :=
  ⟨_, parse_interrupted, ofJson_interrupted,
    forall₂_columnsBy_iff parse_interrupted ofJson_interrupted⟩

/-- The format has the last segment there at column 6, as the segments are 2, 3 and 1 columns
behind one another. -/
theorem not_forall_columnsBy_formatColumn :
    ¬ ∀ (json : String) (d : Document) (m : SourceMap), Document.parse json = .ok d →
      ofJson json = .ok m →
      List.Forall₂ (ColumnsBy formatColumn) (Text.splitAt ';' d.mappings.toList) m.lines := by
  intro h
  have hlines := linesOf_of_ofJson parse_interrupted ofJson_interrupted
  have hunmoved := (columnsBy_of_decodeLines hlines).2.mp
    (h _ _ _ parse_interrupted ofJson_interrupted) "EAAC,G,CACAA".toList (by decide)
  have hzero := hunmoved [[2, 0, 0, 1], [3], [1, 0, 1, 0, 0]] (by decide +kernel)
    [[2, 0, 0, 1], [3], [1, 0, 1, 0, 0]] (by decide)
  revert hzero
  decide

end ScriptModules.SourceMap

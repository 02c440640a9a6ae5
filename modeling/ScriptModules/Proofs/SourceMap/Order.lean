import Mathlib.Data.List.TakeWhile
import Mathlib.Order.Basic
import ScriptModules.Proofs.Text.Split
import ScriptModules.SourceMap.Document

/-!
# The order of segments

Segments of a line stand in the order of their columns, and those of one column in the order in
which they were added. Every way to make a map keeps this order, so that the segments up to a
column are the front of their line.
-/

namespace ScriptModules.SourceMap

/-- The segments of a line in the order of their columns. -/
def Sorted (line : List Segment) : Prop :=
  line.Pairwise fun s t => s.generatedColumn ≤ t.generatedColumn

/-- A map whose lines are all in order. -/
def Ordered (m : SourceMap) : Prop := ∀ line ∈ m.lines, Sorted line

/-- The segments that come after a column start behind it. -/
theorem lt_of_mem_dropWhile {line : List Segment} (h : Sorted line) {column : UInt32}
    {s : Segment} (hs : s ∈ line.dropWhile (·.generatedColumn ≤ column)) :
    column < s.generatedColumn := by
  have hlate := Text.eq_false_of_mem_dropWhile (h.imp fun {s t} hle ht => by
    rw [decide_eq_true_eq] at ht ⊢
    exact UInt32.le_trans hle ht) hs
  rwa [decide_eq_false_iff_not, UInt32.not_le] at hlate

/-- The front of a line up to a column is what starts at the column or before. -/
theorem takeWhile_eq_filter {line : List Segment} (h : Sorted line) (column : UInt32) :
    line.takeWhile (·.generatedColumn ≤ column) =
      line.filter (·.generatedColumn ≤ column) := by
  refine (Text.filter_eq_takeWhile (fun s hs => ?_) fun s hs => ?_).symm
  · exact List.mem_takeWhile_imp (p := fun s : Segment => decide (s.generatedColumn ≤ column)) hs
  · simpa using lt_of_mem_dropWhile h hs

/-- Inserting a segment keeps the order. -/
theorem Sorted.insertSegment {line : List Segment} (h : Sorted line) (s : Segment) :
    Sorted (insertSegment s line) := by
  have hfront : ∀ t ∈ line.takeWhile (·.generatedColumn ≤ s.generatedColumn),
      t.generatedColumn ≤ s.generatedColumn := by
    intro t ht
    simpa using List.mem_takeWhile_imp ht
  have hback : ∀ t ∈ line.dropWhile (·.generatedColumn ≤ s.generatedColumn),
      s.generatedColumn ≤ t.generatedColumn :=
    fun t ht => UInt32.le_of_lt (lt_of_mem_dropWhile h ht)
  refine List.pairwise_append.mpr ⟨h.sublist (List.takeWhile_sublist _),
    List.pairwise_cons.mpr ⟨hback, h.sublist (List.dropWhile_sublist _)⟩, ?_⟩
  intro t ht u hu
  rcases List.mem_cons.mp hu with rfl | hu
  · exact hfront t ht
  · exact UInt32.le_trans (hfront t ht) (hback u hu)

/-- A segment that no other starts behind comes last. -/
theorem insertSegment_eq_concat {line : List Segment} {s : Segment}
    (h : ∀ t ∈ line, t.generatedColumn ≤ s.generatedColumn) :
    insertSegment s line = line ++ [s] := by
  have htake : line.takeWhile (·.generatedColumn ≤ s.generatedColumn) = line :=
    List.takeWhile_eq_self_iff.mpr (by simpa using h)
  have hdrop : line.dropWhile (·.generatedColumn ≤ s.generatedColumn) = [] :=
    List.dropWhile_eq_nil_iff.mpr (by simpa using h)
  rw [insertSegment, htake, hdrop]

/-- The segments of a line. Lines that are not there have none. -/
def row (m : SourceMap) (line : Nat) : List Segment := (m.lines[line]?).getD []

/-- Changing a line leaves the others as they are. -/
theorem getElem?_changeLine (f : List Segment → List Segment) (n k : Nat)
    (lines : List (List Segment)) :
    ((changeLine f n lines)[k]?).getD [] =
      if k = n then f ((lines[n]?).getD []) else (lines[k]?).getD [] := by
  induction n generalizing k lines with
  | zero => cases lines <;> cases k <;> simp [changeLine]
  | succ n ih =>
    cases lines <;> cases k with
    | zero => simp [changeLine]
    | succ k => simp [changeLine, ih]

/-- A line of a changed map is empty, was there before, or is what a line was changed to. -/
theorem mem_changeLine {f : List Segment → List Segment} {n : Nat}
    {lines : List (List Segment)} {line : List Segment} (h : line ∈ changeLine f n lines) :
    line = [] ∨ line ∈ lines ∨ ∃ old, (old = [] ∨ old ∈ lines) ∧ line = f old := by
  induction n generalizing lines with
  | zero =>
    cases lines with
    | nil => exact Or.inr (Or.inr ⟨[], Or.inl rfl, by simpa [changeLine] using h⟩)
    | cons l rest =>
      rcases List.mem_cons.mp h with rfl | h
      · exact Or.inr (Or.inr ⟨l, Or.inr List.mem_cons_self, rfl⟩)
      · exact Or.inr (Or.inl (List.mem_cons_of_mem _ h))
  | succ n ih =>
    cases lines with
    | nil =>
      rcases List.mem_cons.mp h with rfl | h
      · exact Or.inl rfl
      · simpa using ih h
    | cons l rest =>
      rcases List.mem_cons.mp h with rfl | h
      · exact Or.inr (Or.inl List.mem_cons_self)
      · rcases ih h with h | h | ⟨old, h | h, hline⟩
        · exact Or.inl h
        · exact Or.inr (Or.inl (List.mem_cons_of_mem _ h))
        · exact Or.inr (Or.inr ⟨old, Or.inl h, hline⟩)
        · exact Or.inr (Or.inr ⟨old, Or.inr (List.mem_cons_of_mem _ h), hline⟩)

/-- Adding a segment puts it on its line and leaves the others. -/
theorem row_add (m : SourceMap) (line : Nat) (s : Segment) (k : Nat) :
    (m.add line s).row k = if k = line then insertSegment s (m.row line) else m.row k :=
  getElem?_changeLine _ _ _ _

/-- The rows of an ordered map are sorted, also where there is no line. -/
theorem Ordered.sorted_row {m : SourceMap} (h : m.Ordered) (line : Nat) : Sorted (m.row line) := by
  unfold row
  cases hl : m.lines[line]? with
  | none => exact List.Pairwise.nil
  | some l => exact h l (List.mem_of_getElem? hl)

/-- Adding a segment keeps a map ordered. -/
theorem Ordered.add {m : SourceMap} (h : m.Ordered) (line : Nat) (s : Segment) :
    (m.add line s).Ordered := by
  intro l hl
  rcases mem_changeLine hl with rfl | hl | ⟨old, hold, rfl⟩
  · exact List.Pairwise.nil
  · exact h l hl
  · apply Sorted.insertSegment
    rcases hold with rfl | hold
    · exact List.Pairwise.nil
    · exact h old hold

@[simp] theorem lines_addSource (m : SourceMap) (path : String) (content : Option String) :
    (m.addSource path content).1.lines = m.lines := by
  unfold addSource
  split <;> rfl

/-- Adding a source keeps a map ordered. -/
theorem Ordered.addSource {m : SourceMap} (h : m.Ordered) (path : String)
    (content : Option String) : (m.addSource path content).1.Ordered := by
  rw [Ordered, lines_addSource]
  exact h

/-- The map of an unchanged text is ordered. -/
theorem ordered_identity (path source : String) : (identity path source).Ordered := by
  intro l hl
  obtain ⟨_, -, rfl⟩ := List.mem_map.mp hl
  exact List.pairwise_singleton _ _

/-- Following a segment keeps a map ordered. -/
theorem Ordered.follow {m : SourceMap} (h : m.Ordered) (earlier : SourceMap) (line : Nat)
    (s : Segment) : (follow earlier m line s).Ordered := by
  unfold SourceMap.follow
  split
  · exact h
  · exact (h.addSource _ _).add _ _

/-- What holds at the start of a composition and is kept by following a segment holds in the
end. -/
theorem compose_induction {P : SourceMap → Prop} {later earlier : SourceMap}
    (hstart : P { file := later.file })
    (hstep : ∀ m line s, P m → P (follow earlier m line s)) : P (later.compose earlier) := by
  unfold compose
  refine List.foldlRecOn _ _ hstart fun m hm pair _ => ?_
  exact List.foldlRecOn _ _ hm fun m hm s _ => hstep m pair.2 s hm

/-- Every composition is ordered, whatever the two maps are. -/
theorem ordered_compose (later earlier : SourceMap) : (later.compose earlier).Ordered :=
  compose_induction (by simp [Ordered]) fun _ _ _ h => h.follow _ _ _

/-- Reading keeps the segments of a line in order. -/
theorem sorted_of_decodeLine {f f' : Fields} {offset offset' : Nat} {line line' : List Segment}
    {fields : List (List Char)} (hline : Sorted line)
    (h : decodeLine f offset line fields = .ok (f', offset', line')) : Sorted line' := by
  induction fields generalizing f offset line with
  | nil =>
    simp only [decodeLine, Except.ok.injEq, Prod.mk.injEq] at h
    exact h.2.2 ▸ hline
  | cons field rest ih =>
    simp only [decodeLine] at h
    cases hvalues : decodeQuantities offset 0 0 field with
    | error e => simp [hvalues, bind, Except.bind] at h
    | ok values =>
      cases hstep : f.step (offset + field.length + 1) values with
      | error e => simp [hvalues, hstep, bind, Except.bind] at h
      | ok pair =>
        obtain ⟨g, segment?⟩ := pair
        simp only [hvalues, hstep, bind, Except.bind] at h
        refine ih ?_ h
        cases segment? with
        | none => exact hline
        | some s => exact hline.insertSegment s

/-- The lines that are read are in order. -/
theorem sorted_of_decodeLines {f : Fields} {offset : Nat} {groups : List (List Char)}
    {lines : List (List Segment)} (h : decodeLines f offset groups = .ok lines) :
    ∀ line ∈ lines, Sorted line := by
  induction groups generalizing f offset lines with
  | nil =>
    simp only [decodeLines, Except.ok.injEq] at h
    simp [← h]
  | cons group rest ih =>
    simp only [decodeLines] at h
    cases hline : decodeLine { f with generatedColumn := 0 } offset []
        ((Text.splitAt ',' group).filter (!·.isEmpty)) with
    | error e => simp [hline, bind, Except.bind] at h
    | ok triple =>
      obtain ⟨g, offset', line⟩ := triple
      cases hmore : decodeLines g (offset' + 1) rest with
      | error e => simp [hline, hmore, bind, Except.bind] at h
      | ok more =>
        simp only [hline, hmore, bind, Except.bind, pure, Except.pure, Except.ok.injEq] at h
        subst h
        intro l hl
        rcases List.mem_cons.mp hl with rfl | hl
        · exact sorted_of_decodeLine List.Pairwise.nil hline
        · exact ih hmore l hl

/-- A map that is read is ordered. -/
theorem ordered_of_ofJson {text : String} {m : SourceMap} (h : ofJson text = .ok m) :
    m.Ordered := by
  unfold ofJson at h
  split at h
  · exact absurd h (by simp)
  · unfold Document.toMap at h
    split at h
    · exact absurd h (by simp)
    · split at h
      · exact absurd h (by simp)
      · rename_i lines hlines
        obtain rfl := Except.ok.inj h
        exact sorted_of_decodeLines hlines

/-- The maps that can be made. -/
inductive Built : SourceMap → Prop
  | empty : Built {}
  | identity (path source : String) : Built (identity path source)
  | addSource {m : SourceMap} (path : String) (content : Option String) :
      Built m → Built (m.addSource path content).1
  | add {m : SourceMap} (line column source originalLine originalColumn : UInt32) :
      Built m → Built (m.add line.toNat ⟨column, source, originalLine, originalColumn, none⟩)
  | file {m : SourceMap} (name : Option String) : Built m → Built { m with file := name }
  | compose {later earlier : SourceMap} :
      Built later → Built earlier → Built (later.compose earlier)
  | ofJson {text : String} {m : SourceMap} : ofJson text = .ok m → Built m

/-- Every map that can be made is ordered. -/
theorem Built.ordered {m : SourceMap} (h : Built m) : m.Ordered := by
  induction h with
  | empty => simp [Ordered]
  | identity path source => exact ordered_identity path source
  | addSource path content _ ih => exact ih.addSource path content
  | add line column source originalLine originalColumn _ ih => exact ih.add _ _
  | file name _ ih => exact ih
  | compose _ _ _ _ => exact ordered_compose _ _
  | ofJson h => exact ordered_of_ofJson h

end ScriptModules.SourceMap

import Mathlib.Data.List.Basic
import Mathlib.Data.List.Induction
import ScriptModules.Proofs.SourceMap.Halving

/-!
# Inserted segments

Segments that are inserted one after the other stand in the order of their columns, and those of
one column in the order in which they were inserted. The last segment up to a column is therefore
the one that was inserted last among those with the greatest column up to it.
-/

namespace ScriptModules.SourceMap

variable {line segments : List Segment} {s t : Segment} {column : UInt32}

/-- A line of segments that are inserted one after the other. -/
def inserted (segments : List Segment) : List Segment :=
  segments.foldl (fun line s => insertSegment s line) []

/-- The segment that is inserted last is put into the line of the others. -/
theorem inserted_concat (segments : List Segment) (s : Segment) :
    inserted (segments ++ [s]) = insertSegment s (inserted segments) :=
  List.foldl_concat _ _ _ _

/-- A line of inserted segments is in order. -/
theorem sorted_inserted (segments : List Segment) : Sorted (inserted segments) :=
  List.foldlRecOn (motive := Sorted) segments _ List.Pairwise.nil fun _ h s _ => h.insertSegment s

/-- Inserting segments at the cuts that halving finds makes the same line. -/
theorem foldl_insertAtCut (segments : List Segment) :
    segments.foldl (fun line s => insertAtCut s line) [] = inserted segments := by
  induction segments using List.reverseRecOn with
  | nil => rfl
  | append_singleton segments s ih =>
    rw [List.foldl_concat, ih, (sorted_inserted segments).insertAtCut_eq, inserted_concat]

/-- Behind the segments up to a column, there are none of a column up to that one. -/
theorem filter_dropWhile_eq_nil (h : Sorted line) {start : UInt32} (hle : start ≤ column) :
    (line.dropWhile (·.generatedColumn ≤ column)).filter (·.generatedColumn = start) = [] := by
  refine List.filter_eq_nil_iff.mpr fun t ht heq => ?_
  have hlt := lt_of_mem_dropWhile h ht
  rw [of_decide_eq_true heq] at hlt
  exact absurd hle (UInt32.not_le.mpr hlt)

/-- A segment goes behind the others of its column. -/
theorem filter_insertSegment (h : Sorted line) (s : Segment) (column : UInt32) :
    (insertSegment s line).filter (·.generatedColumn = column) =
      line.filter (·.generatedColumn = column) ++ [s].filter (·.generatedColumn = column) := by
  have hline := congrArg (List.filter (·.generatedColumn = column))
    (List.takeWhile_append_dropWhile
      (p := fun t : Segment => decide (t.generatedColumn ≤ s.generatedColumn)) (l := line))
  rw [List.filter_append] at hline
  rw [insertSegment, ← List.singleton_append, List.filter_append, List.filter_append, ← hline,
    List.append_assoc]
  congr 1
  by_cases hs : s.generatedColumn = column
  · have hback := filter_dropWhile_eq_nil h (UInt32.le_of_eq hs.symm)
    rw [hback, List.append_nil, List.nil_append]
  · rw [List.filter_cons_of_neg (by simpa using hs), List.filter_nil, List.nil_append,
      List.append_nil]

/-- The segments of one column stand in the order in which they were inserted. -/
theorem filter_inserted (segments : List Segment) (column : UInt32) :
    (inserted segments).filter (·.generatedColumn = column) =
      segments.filter (·.generatedColumn = column) := by
  induction segments using List.reverseRecOn with
  | nil => rfl
  | append_singleton segments s ih =>
    rw [inserted_concat, filter_insertSegment (sorted_inserted segments), ih, List.filter_append]

/-- Segments are on the line if they were inserted. -/
theorem mem_inserted : s ∈ inserted segments ↔ s ∈ segments := by
  have hfilter : s ∈ (inserted segments).filter (·.generatedColumn = s.generatedColumn) ↔
      s ∈ segments.filter (·.generatedColumn = s.generatedColumn) := by
    rw [filter_inserted]
  simpa using hfilter

/-- Of the segments that were inserted, one after the other, the last among those with the greatest
column up to a given one. -/
structure IsLatest (column : UInt32) (segments : List Segment) (s : Segment) : Prop where
  le : s.generatedColumn ≤ column
  latest : ∃ before after, segments = before ++ s :: after ∧
    (∀ t ∈ before, t.generatedColumn ≤ column → t.generatedColumn ≤ s.generatedColumn) ∧
    ∀ t ∈ after, t.generatedColumn ≤ column → t.generatedColumn < s.generatedColumn

/-- There is one latest segment at most. -/
theorem IsLatest.unique (hs : IsLatest column segments s) (ht : IsLatest column segments t) :
    s = t := by
  obtain ⟨hle, before, after, rfl, hbefore, hafter⟩ := hs
  obtain ⟨hle', before', after', hsegments, hbefore', hafter'⟩ := ht
  rcases List.append_eq_append_iff.mp hsegments with ⟨c, hc, hrest⟩ | ⟨c, hc, hrest⟩
  · cases c with
    | nil => exact (List.cons.inj hrest).1
    | cons u c =>
      obtain ⟨rfl, rfl⟩ := List.cons.inj hrest
      have hlt := hafter t (by simp) hle'
      have hge := hbefore' s (by simp [hc]) hle
      exact absurd hlt (UInt32.not_lt.mpr hge)
  · cases c with
    | nil => exact (List.cons.inj hrest).1.symm
    | cons u c =>
      obtain ⟨rfl, rfl⟩ := List.cons.inj hrest
      have hlt := hafter' s (by simp) hle
      have hge := hbefore t (by simp [hc]) hle'
      exact absurd hlt (UInt32.not_lt.mpr hge)

/-- The last segment up to a column has the greatest column of them. -/
theorem le_of_segmentAt? (h : Sorted line) (hat : segmentAt? column line = some s) :
    s.generatedColumn ≤ column ∧
      ∀ t ∈ line, t.generatedColumn ≤ column → t.generatedColumn ≤ s.generatedColumn := by
  obtain ⟨front, hfront⟩ := List.getLast?_eq_some_iff.mp hat
  rw [takeWhile_eq_filter h] at hfront
  have hmem (t : Segment) : t ∈ front ++ [s] ↔ t ∈ line ∧ t.generatedColumn ≤ column := by
    rw [← hfront, List.mem_filter, decide_eq_true_iff]
  have hsorted : Sorted (front ++ [s]) := hfront ▸ h.sublist List.filter_sublist
  refine ⟨((hmem s).mp (by simp)).2, fun t ht hle => ?_⟩
  rcases List.mem_append.mp ((hmem t).mpr ⟨ht, hle⟩) with ht | ht
  · exact (List.pairwise_append.mp hsorted).2.2 t ht s (by simp)
  · rw [List.mem_singleton.mp ht]
    exact UInt32.le_refl _

/-- The last segment up to a column is the last of its own column. -/
theorem exists_filter_of_segmentAt? (h : Sorted line) (hat : segmentAt? column line = some s) :
    ∃ front, line.filter (·.generatedColumn = s.generatedColumn) = front ++ [s] := by
  obtain ⟨front, hfront⟩ := List.getLast?_eq_some_iff.mp hat
  refine ⟨front.filter (·.generatedColumn = s.generatedColumn), ?_⟩
  have hbehind := filter_dropWhile_eq_nil h (le_of_segmentAt? h hat).1
  have hline := List.takeWhile_append_dropWhile
    (p := fun t : Segment => decide (t.generatedColumn ≤ column)) (l := line)
  rw [hfront] at hline
  rw [← hline, List.filter_append, hbehind, List.append_nil, List.filter_append]
  simp

/-- A segment with the greatest column that was inserted last among those of its column. -/
theorem isLatest_of_filter {front : List Segment} (hle : s.generatedColumn ≤ column)
    (hgreatest : ∀ t ∈ segments, t.generatedColumn ≤ column →
      t.generatedColumn ≤ s.generatedColumn)
    (hlast : segments.filter (·.generatedColumn = s.generatedColumn) = front ++ [s]) :
    IsLatest column segments s := by
  obtain ⟨l, r, rfl, -, hr⟩ := List.filter_eq_append_iff.mp hlast
  obtain ⟨a, after, rfl, -, -, hafter⟩ := List.filter_eq_cons_iff.mp hr
  refine ⟨hle, l ++ a, after, by rw [List.append_assoc], fun t ht => hgreatest t ?_,
    fun t ht hcolumn => ?_⟩
  · rw [← List.append_assoc]
    exact List.mem_append_left _ ht
  · refine UInt32.lt_of_le_of_ne (hgreatest t (by simp [ht]) hcolumn) fun heq => ?_
    exact List.filter_eq_nil_iff.mp hafter t ht (by simpa using heq)

/-- The last segment up to a column is the latest. -/
theorem isLatest_of_segmentAt? (h : segmentAt? column (inserted segments) = some s) :
    IsLatest column segments s := by
  obtain ⟨hle, hgreatest⟩ := le_of_segmentAt? (sorted_inserted segments) h
  obtain ⟨front, hfront⟩ := exists_filter_of_segmentAt? (sorted_inserted segments) h
  rw [filter_inserted] at hfront
  exact isLatest_of_filter hle (fun t ht => hgreatest t (mem_inserted.mpr ht)) hfront

/-- There is no segment up to a column exactly when all that were inserted start behind it. -/
theorem segmentAt?_inserted_eq_none_iff :
    segmentAt? column (inserted segments) = none ↔ ∀ t ∈ segments, column < t.generatedColumn := by
  rw [segmentAt?, List.getLast?_eq_none_iff, takeWhile_eq_filter (sorted_inserted segments),
    List.filter_eq_nil_iff]
  refine ⟨fun h t ht => ?_, fun h t ht => ?_⟩
  · simpa using h t (mem_inserted.mpr ht)
  · simpa using h t (mem_inserted.mp ht)

end ScriptModules.SourceMap

import ScriptModules.Proofs.SourceMap.Order
import ScriptModules.Proofs.Text.Split

/-!
# Cutting a line by halving

A line in the order of its columns has a place where the segments up to a column end. Halving finds
it: a segment goes in there, and the segment in front of it is the one that a column belongs to.
-/

namespace ScriptModules.SourceMap

variable {p : Segment → Bool} {segments : List Segment} {s : Segment} {column : UInt32}

/-- Where a condition ceases to hold among some segments from a place on, found by halving. -/
def cutFrom (p : Segment → Bool) (segments : List Segment) (base size : Nat) : Nat :=
  if size ≤ 1 then
    if (segments[base]?).any p then base + 1 else base
  else
    cutFrom p segments (if (segments[base + size / 2]?).any p then base + size / 2 else base)
      (size - size / 2)
termination_by size
decreasing_by omega

/-- Where a condition ceases to hold on a line, found by halving. -/
def cut (p : Segment → Bool) (segments : List Segment) : Nat := cutFrom p segments 0 segments.length

/-- Put a segment where halving cuts the line for its column. -/
def insertAtCut (s : Segment) (segments : List Segment) : List Segment :=
  let n := cut (·.generatedColumn ≤ s.generatedColumn) segments
  segments.take n ++ s :: segments.drop n

/-- The segment in front of the place where halving cuts the line for a column. -/
def beforeCut? (column : UInt32) (segments : List Segment) : Option Segment :=
  match cut (·.generatedColumn ≤ column) segments with
  | 0 => none
  | n + 1 => segments[n]?

/-- The front of a line with a condition has as many segments as a cut behind it takes. -/
theorem take_length_takeWhile (p : Segment → Bool) (segments : List Segment) :
    segments.take (segments.takeWhile p).length = segments.takeWhile p :=
  (List.prefix_iff_eq_take.mp (List.takeWhile_prefix p)).symm

/-- If a condition ceases to hold once, it holds of the segments in front of that place alone. -/
theorem any_getElem?_eq (h : ∀ s ∈ segments.dropWhile p, p s = false) (i : Nat) :
    (segments[i]?).any p = decide (i < (segments.takeWhile p).length) := by
  by_cases hi : i < (segments.takeWhile p).length
  · have hget : segments[i]? = some (segments.takeWhile p)[i] := by
      rw [← List.getElem?_take_of_lt hi, take_length_takeWhile, List.getElem?_eq_getElem hi]
    have hp : p (segments.takeWhile p)[i] = true := List.mem_takeWhile_imp (List.getElem_mem hi)
    rw [hget, Option.any_some, hp, decide_eq_true hi]
  · rw [decide_eq_false hi]
    cases hs : segments[i]? with
    | none => rfl
    | some s =>
      refine h s ?_
      rw [← Text.drop_length_takeWhile]
      refine List.mem_of_getElem? (i := i - (segments.takeWhile p).length) ?_
      rw [List.getElem?_drop, Nat.add_sub_cancel' (Nat.le_of_not_lt hi), hs]

/-- Halving keeps the place that it looks for among the segments that are left. -/
theorem cutFrom_eq {n : Nat} (h : ∀ i, (segments[i]?).any p = decide (i < n)) {base size : Nat}
    (hbase : base ≤ n) (hend : n ≤ base + size) : cutFrom p segments base size = n := by
  induction size using Nat.strongRecOn generalizing base with
  | ind size ih =>
    rw [cutFrom]
    split
    · rw [h]
      by_cases hlt : base < n
      · rw [if_pos (decide_eq_true hlt)]
        omega
      · rw [if_neg (by simpa using hlt)]
        omega
    · rw [h]
      by_cases hlt : base + size / 2 < n
      · rw [if_pos (decide_eq_true hlt)]
        exact ih _ (by omega) (by omega) (by omega)
      · rw [if_neg (by simpa using hlt)]
        exact ih _ (by omega) hbase (by omega)

/-- Halving cuts a line in order behind its segments up to a column. -/
theorem Sorted.cut_eq (h : Sorted segments) (column : UInt32) :
    cut (·.generatedColumn ≤ column) segments =
      (segments.takeWhile (·.generatedColumn ≤ column)).length := by
  refine cutFrom_eq (any_getElem?_eq fun s hs => ?_) (Nat.zero_le _) ?_
  · simpa using lt_of_mem_dropWhile h hs
  · rw [Nat.zero_add]
    exact (List.takeWhile_sublist _).length_le

/-- In a line in order, halving finds the place of a segment. -/
theorem Sorted.insertAtCut_eq (h : Sorted segments) (s : Segment) :
    insertAtCut s segments = SourceMap.insertSegment s segments := by
  rw [insertAtCut, h.cut_eq, take_length_takeWhile, Text.drop_length_takeWhile]
  rfl

/-- In a line in order, halving finds the segment of a column. -/
theorem Sorted.beforeCut?_eq (h : Sorted segments) (column : UInt32) :
    beforeCut? column segments = segmentAt? column segments := by
  rw [beforeCut?, h.cut_eq, segmentAt?, List.getLast?_eq_getElem?]
  split
  · rename_i hzero
    rw [List.eq_nil_of_length_eq_zero hzero]
    rfl
  · rename_i n hn
    rw [hn, Nat.succ_sub_one, ← take_length_takeWhile, hn,
      List.getElem?_take_of_lt (Nat.lt_succ_self n)]

end ScriptModules.SourceMap

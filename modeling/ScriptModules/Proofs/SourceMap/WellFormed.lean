import Mathlib.Data.List.Forall2
import ScriptModules.Proofs.SourceMap.Composition
import ScriptModules.Proofs.SourceMap.Contents

/-!
# Well-formed compositions

A composition lists every source once, with a content known or not, and its segments are in order
and have sources that it lists, whatever the two maps are like. Each of its lines has one segment
for every segment of the later map on that line that the earlier one gives an origin, in the same
order, and no others.
-/

namespace ScriptModules.SourceMap

variable {m later earlier : SourceMap}

/-- A map that lists every source once, with a content known or not, and whose segments are in order
and have sources that it lists. -/
structure WellFormed (m : SourceMap) : Prop where
  nodup : m.sources.Nodup
  contents : m.contents.length = m.sources.length
  listed : ∀ line ∈ m.lines, ∀ s ∈ line, s.source.toNat < m.sources.length
  ordered : m.Ordered

/-- What is on a line after an insertion was inserted or was there. -/
theorem mem_insertSegment {s t : Segment} {line : List Segment} (h : t ∈ insertSegment s line) :
    t = s ∨ t ∈ line := by
  rcases List.mem_append.mp h with h | h
  · exact Or.inr (List.takeWhile_subset _ h)
  · rcases List.mem_cons.mp h with rfl | h
    · exact Or.inl rfl
    · exact Or.inr (List.dropWhile_subset _ h)

/-- A segment of a listed source may be added at any place. -/
theorem Gathered.add (h : Gathered earlier m) (line : Nat) {s : Segment}
    (hs : s.source.toNat < m.sources.length) (hname : s.name = none) :
    Gathered earlier (m.add line s) := by
  refine ⟨h.nodup, h.known, fun k t ht => ?_⟩
  rw [row_add] at ht
  split at ht
  · rcases mem_insertSegment ht with rfl | ht
    · exact ⟨hs, hname⟩
    · exact h.listed line t ht
  · exact h.listed k t ht

/-- What every composition in the making keeps, whatever the order of the later map. -/
theorem gathered_compose (later earlier : SourceMap) :
    Gathered earlier (later.compose earlier) := by
  refine compose_induction (P := Gathered earlier) (gathered_empty earlier later.file)
    fun m line s h => ?_
  unfold SourceMap.follow
  split
  · exact h
  · rename_i o ho
    obtain ⟨hadded, -, hindex⟩ :=
      h.addSource (earlier.contentOf? o.source) (source_mem_of_origin? ho)
    exact hadded.add line (List.getElem?_eq_some_iff.mp hindex).1 rfl

/-- The sources of all segments of a composition are listed. -/
theorem Gathered.listed_of_mem (h : Gathered earlier m) {line : List Segment}
    (hline : line ∈ m.lines) {s : Segment} (hs : s ∈ line) : s.source.toNat < m.sources.length := by
  obtain ⟨k, hk⟩ := List.getElem?_of_mem hline
  exact (h.listed k s (by rwa [row, hk])).1

/-- A segment of a composition stands for one of the later map: it starts where that one starts, and
has the origin that the earlier map gives to that one's original place. -/
def Carries (earlier composed : SourceMap) (s t : Segment) : Prop :=
  ∃ o, earlier.origin? s.originalLine s.originalColumn = some o ∧
    composed.sources[t.source.toNat]? = some o.source ∧
    t = ⟨s.generatedColumn, t.source, o.line, o.column, none⟩

/-- Whether the original place of a segment can be looked up in the earlier map. -/
def hasOrigin (earlier : SourceMap) (s : Segment) : Bool :=
  (earlier.origin? s.originalLine s.originalColumn).isSome

/-- What is read from traced segments comes from those that have an origin. -/
theorem tracedReads_eq (earlier : SourceMap) (line : List Segment) :
    tracedReads earlier line =
      (line.filter (hasOrigin earlier)).map fun s => (s.generatedColumn, traced earlier s) := by
  induction line with
  | nil => rfl
  | cons s rest ih =>
    have hcons : tracedReads earlier (s :: rest) =
        tracedReads earlier [s] ++ tracedReads earlier rest := by
      rw [tracedReads, tracedReads, tracedReads, ← List.filterMap_append, List.singleton_append]
    rw [hcons, ih]
    cases ho : earlier.origin? s.originalLine s.originalColumn with
    | none =>
      rw [List.filter_cons_of_neg (by simp [hasOrigin, ho])]
      simp [tracedReads, traced, ho]
    | some o =>
      rw [List.filter_cons_of_pos (by simp [hasOrigin, ho])]
      simp [tracedReads, traced, ho]

/-- A segment without a name that reads as another is traced stands for that one. -/
theorem carries_of_reads {composed : SourceMap} {s t : Segment} (hname : t.name = none)
    (horigin : hasOrigin earlier s = true)
    (h : (s.generatedColumn, traced earlier s) = (t.generatedColumn, composed.originOf? t)) :
    Carries earlier composed s t := by
  obtain ⟨o, ho⟩ := Option.isSome_iff_exists.mp horigin
  obtain ⟨hcolumn, htraced⟩ := Prod.mk.inj h
  rw [traced, ho] at htraced
  obtain ⟨source, hsource, hread⟩ := Option.map_eq_some_iff.mp htraced.symm
  obtain ⟨rfl, hline, horiginal, -⟩ := Origin.mk.inj hread
  refine ⟨o, ho, hsource, ?_⟩
  rw [← hname, hcolumn, ← hline, ← horiginal]

/-- A composition is well formed, and each of its lines has one segment for every segment of the
later map on that line whose original place can be looked up in the earlier map. The later map is
in order, as every map is that can be made (`Built.ordered`). -/
theorem wellFormed_compose (h : later.Ordered) (earlier : SourceMap) :
    (later.compose earlier).WellFormed ∧
      ∀ line, List.Forall₂ (Carries earlier (later.compose earlier))
        ((later.row line).filter (hasOrigin earlier)) ((later.compose earlier).row line) := by
  have hgathered := gathered_compose later earlier
  have hwell : (later.compose earlier).WellFormed :=
    ⟨hgathered.nodup, length_contents_compose later earlier,
      fun line hline s hs => hgathered.listed_of_mem hline hs, ordered_compose later earlier⟩
  refine ⟨hwell, fun line => ?_⟩
  have hreads := (tracedReads_eq earlier (later.row line)).symm.trans
    (reads_compose h earlier line).symm
  rw [reads, ← List.forall₂_eq_eq_eq, List.forall₂_map_left_iff, List.forall₂_map_right_iff]
    at hreads
  refine List.forall₂_iff_get.mpr ⟨hreads.length_eq, fun i hi hi' => ?_⟩
  have hkept := List.mem_filter.mp (List.get_mem _ ⟨i, hi⟩)
  exact carries_of_reads (hgathered.listed line _ (List.get_mem _ _)).2 hkept.2 (hreads.get hi hi')

/-- A later map with two segments at one column, one that cannot be looked up between them, and one
of a source that it does not list. -/
def tied : SourceMap :=
  { lines := [[], [⟨3, 0, 0, 4, none⟩, ⟨3, 7, 5, 0, none⟩, ⟨3, 0, 0, 0, some 2⟩,
    ⟨9, 1, 2, 0, none⟩]] }

/-- An earlier map that lists a source twice and has no contents for the last of its sources. -/
def doubled : SourceMap :=
  { sources := ["a.ts", "a.ts", "b.ts"], contents := [none, some "a"], names := ["x"],
    lines := [[⟨0, 1, 7, 0, some 0⟩, ⟨4, 2, 0, 0, none⟩], [], [⟨0, 0, 1, 1, none⟩]] }

/-- At one column the segments that can be looked up stay in their order, without the one between
them. -/
theorem wellFormed_compose_tied :
    tied.Ordered ∧ (tied.compose doubled).WellFormed ∧
      ∀ line, List.Forall₂ (Carries doubled (tied.compose doubled))
        ((tied.row line).filter (hasOrigin doubled)) ((tied.compose doubled).row line) := by
  have hordered : tied.Ordered := by
    unfold Ordered Sorted
    decide
  exact ⟨hordered, wellFormed_compose hordered doubled⟩

/-- The order of the segments is the order of their columns and, at one column, that of the later
map. -/
example : tied.compose doubled =
    { sources := ["b.ts", "a.ts"], contents := [none, none], lines :=
      [[], [⟨3, 0, 0, 0, none⟩, ⟨3, 1, 7, 0, none⟩, ⟨9, 1, 1, 1, none⟩]] } := by
  decide

end ScriptModules.SourceMap

import Mathlib.Algebra.Group.Nat.Defs
import Mathlib.Data.List.Nodup
import Mathlib.Data.List.Perm.Subperm
import ScriptModules.Proofs.SourceMap.Order

/-!
# Chained maps

A composition has a segment for every segment of the later map that the earlier one gives an
origin. A place therefore has the origin of the last such segment of its line up to its column:
the origin that the two maps give one after the other, if they give any, and else one that comes
before it.
-/

namespace ScriptModules.SourceMap

variable {m later earlier : SourceMap}

/-- The origin of a segment. -/
def originOf? (m : SourceMap) (s : Segment) : Option Origin :=
  (m.sources[s.source.toNat]?).map fun source =>
    ⟨source, s.originalLine, s.originalColumn, s.name.bind fun n => m.names[n.toNat]?⟩

/-- The origin of a place is that of the last segment up to its column. -/
theorem origin?_eq (m : SourceMap) (line column : UInt32) :
    m.origin? line column = (segmentAt? column (m.row line.toNat)).bind m.originOf? := by
  simp only [origin?, row, bind, pure]
  cases m.lines[line.toNat]? with
  | none => rfl
  | some segments =>
    cases hs : segmentAt? column segments with
    | none => simp [hs]
    | some s => cases ho : m.sources[s.source.toNat]? <;> simp [hs, ho, originOf?]

/-- An origin without its name. -/
def unnamed (o : Origin) : Origin := { o with name := none }

/-- The origin that an earlier map gives a segment of a later one, without its name. -/
def traced (earlier : SourceMap) (s : Segment) : Option Origin :=
  (earlier.origin? s.originalLine s.originalColumn).map unnamed

/-- A source that is found is one of those that an index of 32 bits can name. -/
theorem source_mem_of_origin? {line column : UInt32} {o : Origin}
    (h : m.origin? line column = some o) : o.source ∈ m.sources.take (2 ^ 32) := by
  rw [origin?_eq] at h
  obtain ⟨s, -, hs⟩ := Option.bind_eq_some_iff.mp h
  obtain ⟨source, hsource, rfl⟩ := Option.map_eq_some_iff.mp hs
  refine List.mem_take_iff_getElem.mpr ⟨s.source.toNat, ?_, ?_⟩
  · have hlt := (List.getElem?_eq_some_iff.mp hsource).1
    have hbound := s.source.toNat_lt
    omega
  · exact (List.getElem?_eq_some_iff.mp hsource).2

/-- A composition while it is made: its sources are different ones of the earlier map, and every
segment has one of them and no name. -/
structure Gathered (earlier m : SourceMap) : Prop where
  nodup : m.sources.Nodup
  known : m.sources ⊆ earlier.sources.take (2 ^ 32)
  listed : ∀ line, ∀ s ∈ m.row line, s.source.toNat < m.sources.length ∧ s.name = none

/-- A composition starts with nothing gathered. -/
theorem gathered_empty (earlier : SourceMap) (file : Option String) :
    Gathered earlier { file := file } :=
  ⟨List.nodup_nil, List.nil_subset _, by simp [row]⟩

/-- A composition has no more sources than can be numbered. -/
theorem Gathered.length_sources_le (h : Gathered earlier m) : m.sources.length ≤ 2 ^ 32 :=
  (h.nodup.subperm h.known).length_le.trans (List.length_take_le _ _)

/-- Adding a source only appends to the sources, and the index is that of the source. -/
theorem Gathered.addSource (h : Gathered earlier m) {path : String} (content : Option String)
    (hpath : path ∈ earlier.sources.take (2 ^ 32)) :
    Gathered earlier (m.addSource path content).1 ∧
      m.sources <+: (m.addSource path content).1.sources ∧
      (m.addSource path content).1.sources[(m.addSource path content).2.toNat]? = some path := by
  unfold SourceMap.addSource
  cases hfind : m.sources.findIdx? (· == path) with
  | some i =>
    obtain ⟨hi, hpi, -⟩ := List.findIdx?_eq_some_iff_getElem.mp hfind
    have hsmall : (UInt32.ofNat i).toNat = i :=
      UInt32.toNat_ofNat_of_lt' (hi.trans_le h.length_sources_le)
    refine ⟨h, List.prefix_rfl, ?_⟩
    rw [hsmall, List.getElem?_eq_getElem hi, eq_of_beq hpi]
  | none =>
    have hnew : path ∉ m.sources := by
      intro hmem
      have := List.findIdx?_eq_none_iff.mp hfind path hmem
      simp at this
    have hgathered : Gathered earlier
        { m with sources := m.sources ++ [path], contents := m.contents ++ [content] } := by
      refine ⟨?_, ?_, fun line s hs => ?_⟩
      · refine List.nodup_append.mpr ⟨h.nodup, List.nodup_singleton _, ?_⟩
        rintro a ha b hb rfl
        exact hnew (List.mem_singleton.mp hb ▸ ha)
      · exact List.append_subset.mpr ⟨h.known, by simpa using hpath⟩
      · obtain ⟨hlt, hname⟩ := h.listed line s hs
        refine ⟨?_, hname⟩
        simp only [List.length_append, List.length_singleton]
        omega
    have hlength := hgathered.length_sources_le
    simp only [List.length_append, List.length_singleton] at hlength
    have hsmall : (UInt32.ofNat m.sources.length).toNat = m.sources.length :=
      UInt32.toNat_ofNat_of_lt' (Nat.lt_of_succ_le hlength)
    exact ⟨hgathered, List.prefix_append _ _, by rw [hsmall, List.getElem?_concat_length]⟩

/-- The columns of a line with the origins from there on. -/
def reads (m : SourceMap) (line : Nat) : List (UInt32 × Option Origin) :=
  (m.row line).map fun s => (s.generatedColumn, m.originOf? s)

/-- The columns of those segments that have an origin in the earlier map, and the origins. -/
def tracedReads (earlier : SourceMap) (line : List Segment) : List (UInt32 × Option Origin) :=
  line.filterMap fun s => (traced earlier s).map fun o => (s.generatedColumn, some o)

/-- A segment whose column comes last goes to the end of its line. -/
theorem row_add_of_last {line : Nat} {s : Segment}
    (hlast : ∀ t ∈ m.row line, t.generatedColumn ≤ s.generatedColumn) (k : Nat) :
    (m.add line s).row k = m.row k ++ if k = line then [s] else [] := by
  rw [row_add]
  by_cases hk : k = line
  · rw [if_pos hk, if_pos hk, hk]
    exact insertSegment_eq_concat hlast
  · rw [if_neg hk, if_neg hk, List.append_nil]

/-- A segment without a name reads the same as long as its source keeps its place. -/
theorem originOf?_of_sources {m' : SourceMap} {s : Segment} (hfront : m.sources <+: m'.sources)
    (hlt : s.source.toNat < m.sources.length) (hname : s.name = none) :
    m'.originOf? s = m.originOf? s := by
  have hat : m'.sources[s.source.toNat]? = m.sources[s.source.toNat]? := by
    rw [List.getElem?_eq_getElem hlt, List.prefix_iff_getElem?.mp hfront _ hlt]
  simp only [originOf?, hname, hat]
  rfl

/-- Following a segment that comes last in its line adds what it leads to at the end of the line,
and nothing to other lines. -/
theorem Gathered.follow (h : Gathered earlier m) {line : Nat} {s : Segment}
    (hlast : ∀ t ∈ m.row line, t.generatedColumn ≤ s.generatedColumn) :
    Gathered earlier (follow earlier m line s) ∧
      (∀ t ∈ (SourceMap.follow earlier m line s).row line,
        t.generatedColumn ≤ s.generatedColumn) ∧
      ∀ k, (SourceMap.follow earlier m line s).reads k =
        m.reads k ++ if k = line then tracedReads earlier [s] else [] := by
  cases ho : earlier.origin? s.originalLine s.originalColumn with
  | none =>
    have hfollow : SourceMap.follow earlier m line s = m := by simp [SourceMap.follow, ho]
    rw [hfollow]
    exact ⟨h, hlast, by simp [tracedReads, traced, ho]⟩
  | some o =>
    obtain ⟨hadded, hprefix, hindex⟩ :=
      h.addSource (earlier.contentOf? o.source) (source_mem_of_origin? ho)
    have hlines := lines_addSource m o.source (earlier.contentOf? o.source)
    rcases hpair : m.addSource o.source (earlier.contentOf? o.source) with ⟨m', index⟩
    rw [hpair] at hadded hprefix hindex hlines
    dsimp only at hadded hprefix hindex hlines
    let t : Segment := ⟨s.generatedColumn, index, o.line, o.column, none⟩
    have hfollow : SourceMap.follow earlier m line s = m'.add line t := by
      simp [SourceMap.follow, ho, hpair, t]
    have hsame (k : Nat) : m'.row k = m.row k := by
      rw [row, hlines]
      rfl
    have hrow (k : Nat) : (m'.add line t).row k = m.row k ++ if k = line then [t] else [] := by
      rw [row_add_of_last (by rwa [hsame]), hsame]
    have hkept : ∀ k, ∀ u ∈ m.row k, (m'.add line t).originOf? u = m.originOf? u := by
      intro k u hu
      obtain ⟨hlt, hname⟩ := h.listed k u hu
      exact originOf?_of_sources hprefix hlt hname
    rw [hfollow]
    refine ⟨⟨hadded.nodup, hadded.known, ?_⟩, ?_, ?_⟩
    · intro k u hu
      rw [hrow] at hu
      rcases List.mem_append.mp hu with hu | hu
      · obtain ⟨hlt, hname⟩ := h.listed k u hu
        exact ⟨hlt.trans_le hprefix.length_le, hname⟩
      · split at hu
        · obtain rfl := List.mem_singleton.mp hu
          exact ⟨(List.getElem?_eq_some_iff.mp hindex).1, rfl⟩
        · exact absurd hu List.not_mem_nil
    · intro u hu
      rw [hrow, if_pos rfl] at hu
      rcases List.mem_append.mp hu with hu | hu
      · exact hlast u hu
      · obtain rfl := List.mem_singleton.mp hu
        exact UInt32.le_refl _
    · intro k
      have hnew : (m'.add line t).originOf? t = some (unnamed o) := by
        simp [originOf?, add, hindex, t, unnamed]
      rw [reads, hrow, List.map_append, List.map_congr_left fun u hu => by rw [hkept k u hu]]
      congr 1
      split
      · simp [tracedReads, traced, ho, hnew, t]
      · rfl

/-- Following the segments of a sorted line whose columns come after what is there. -/
theorem Gathered.followLine (h : Gathered earlier m) (line : Nat) {segments : List Segment}
    (hsorted : Sorted segments)
    (hlast : ∀ t ∈ m.row line, ∀ s ∈ segments, t.generatedColumn ≤ s.generatedColumn) :
    Gathered earlier (segments.foldl (fun c s => SourceMap.follow earlier c line s) m) ∧
      ∀ k, (segments.foldl (fun c s => SourceMap.follow earlier c line s) m).reads k =
        m.reads k ++ if k = line then tracedReads earlier segments else [] := by
  induction segments generalizing m with
  | nil => exact ⟨h, by simp [tracedReads]⟩
  | cons s rest ih =>
    obtain ⟨hs, hrest⟩ := List.pairwise_cons.mp hsorted
    obtain ⟨hfollowed, hcolumns, hreads⟩ :=
      h.follow fun t ht => hlast t ht s List.mem_cons_self
    obtain ⟨hgathered, hmore⟩ := ih hfollowed hrest
      fun t ht u hu => UInt32.le_trans (hcolumns t ht) (hs u hu)
    refine ⟨hgathered, fun k => ?_⟩
    rw [List.foldl_cons, hmore, hreads, List.append_assoc]
    split
    · rw [tracedReads, tracedReads, ← List.filterMap_append]
      rfl
    · rfl

/-- Following lines one after the other fills those from the first on. -/
theorem Gathered.followLines (h : Gathered earlier m) {lines : List (List Segment)}
    (hsorted : ∀ line ∈ lines, Sorted line) (first : Nat)
    (hempty : ∀ k, first ≤ k → m.row k = []) (k : Nat) :
    ((lines.zipIdx first).foldl
      (fun c (segments, line) =>
        segments.foldl (fun c s => SourceMap.follow earlier c line s) c) m).reads k =
      m.reads k ++ if first ≤ k then tracedReads earlier ((lines[k - first]?).getD []) else [] := by
  induction lines generalizing m first with
  | nil => simp [tracedReads]
  | cons line rest ih =>
    obtain ⟨hgathered, hreads⟩ := h.followLine first (hsorted line List.mem_cons_self)
      (by simp [hempty first le_rfl])
    have hrows : ∀ k, first + 1 ≤ k → (line.foldl
        (fun c s => SourceMap.follow earlier c first s) m).row k = [] := by
      intro k hk
      have hk' := hreads k
      rw [if_neg (by omega), List.append_nil, reads, reads, hempty k (by omega)] at hk'
      exact List.map_eq_nil_iff.mp hk'
    rw [List.zipIdx_cons, List.foldl_cons,
      ih hgathered (fun l hl => hsorted l (List.mem_cons_of_mem _ hl)) (first + 1) hrows, hreads,
      List.append_assoc]
    congr 1
    rcases Nat.lt_trichotomy k first with hk | rfl | hk
    · rw [if_neg (by omega), if_neg (by omega), if_neg (by omega), List.append_nil]
    · rw [if_pos rfl, if_neg (by omega), if_pos le_rfl, Nat.sub_self, List.append_nil]
      rfl
    · obtain ⟨n, rfl⟩ : ∃ n, k = first + 1 + n := ⟨k - (first + 1), by omega⟩
      rw [if_neg (by omega), if_pos (by omega), if_pos (by omega), List.nil_append,
        Nat.add_sub_cancel_left, show first + 1 + n - first = n + 1 by omega,
        List.getElem?_cons_succ]

/-- What can be read from a line of a composition. -/
theorem reads_compose (h : later.Ordered) (earlier : SourceMap) (line : Nat) :
    (later.compose earlier).reads line = tracedReads earlier (later.row line) := by
  have hreads := (gathered_empty earlier later.file).followLines h 0 (fun k _ => rfl) line
  rw [if_pos (Nat.zero_le _)] at hreads
  exact hreads

/-- The origin of a place, from what can be read from its line. -/
theorem origin?_eq_reads (h : m.Ordered) (line column : UInt32) :
    m.origin? line column =
      (((m.reads line.toNat).filter (·.1 ≤ column)).getLast?).bind Prod.snd := by
  rw [origin?_eq, segmentAt?, takeWhile_eq_filter (h.sorted_row _), reads, List.filter_map,
    List.getLast?_map, Option.bind_map]
  rfl

/-- The segments of a line up to a column. -/
def upTo (column : UInt32) (line : List Segment) : List Segment :=
  line.takeWhile (·.generatedColumn ≤ column)

/-- Of what is read from traced segments, those up to a column are the traces of the segments up
to the column. -/
theorem filter_tracedReads {segments : List Segment} (h : Sorted segments) (column : UInt32) :
    (tracedReads earlier segments).filter (·.1 ≤ column) =
      tracedReads earlier (upTo column segments) := by
  rw [upTo, takeWhile_eq_filter h, tracedReads, tracedReads, List.filter_filterMap,
    List.filterMap_filter]
  congr 1
  funext s
  cases traced earlier s with
  | none => simp
  | some o => simp [Option.filter_some]

/-- What is read last is the last trace. -/
theorem getLast?_tracedReads (segments : List Segment) :
    (tracedReads earlier segments).getLast?.bind Prod.snd =
      (segments.filterMap (traced earlier)).getLast? := by
  have hmap : (tracedReads earlier segments).map Prod.snd =
      (segments.filterMap (traced earlier)).map some := by
    rw [tracedReads, List.map_filterMap, List.map_filterMap]
    congr 1
    funext s
    cases traced earlier s <;> rfl
  have hlast := congrArg List.getLast? hmap
  rw [List.getLast?_map, List.getLast?_map] at hlast
  calc (tracedReads earlier segments).getLast?.bind Prod.snd
      = ((tracedReads earlier segments).getLast?.map Prod.snd).join := by
        cases (tracedReads earlier segments).getLast? <;> rfl
    _ = (segments.filterMap (traced earlier)).getLast? := by
        rw [hlast]
        cases (segments.filterMap (traced earlier)).getLast? <;> rfl

/-- A place of a composition has the origin of the last segment up to its column that has one in
the earlier map. -/
theorem compose_origin?_eq (h : later.Ordered) (earlier : SourceMap) (line column : UInt32) :
    (later.compose earlier).origin? line column =
      ((upTo column (later.row line.toNat)).filterMap (traced earlier)).getLast? := by
  rw [origin?_eq_reads (ordered_compose later earlier), reads_compose h,
    filter_tracedReads (h.sorted_row _), getLast?_tracedReads]

/-- Where the last segment up to a column is traced, its origin is that of the place. -/
theorem getLast?_filterMap_of_origin? {line column : UInt32} {between o : Origin}
    (hlater : later.origin? line column = some between)
    (hearlier : earlier.origin? between.line between.column = some o) :
    ((upTo column (later.row line.toNat)).filterMap (traced earlier)).getLast? =
      some (unnamed o) := by
  rw [origin?_eq] at hlater
  obtain ⟨s, hs, hbetween⟩ := Option.bind_eq_some_iff.mp hlater
  obtain ⟨source, -, rfl⟩ := Option.map_eq_some_iff.mp hbetween
  obtain ⟨front, hfront⟩ := List.getLast?_eq_some_iff.mp hs
  have htraced : traced earlier s = some (unnamed o) := by
    rw [traced, hearlier]
    rfl
  simp [upTo, hfront, htraced]

/-- A place of a composition has the origin of the last segment up to its column that has one in
the earlier map, and so the origin that the two maps give one after the other, if they do. -/
theorem compose_origin? (h : later.Ordered) (earlier : SourceMap) (line column : UInt32) :
    (later.compose earlier).origin? line column =
        ((upTo column (later.row line.toNat)).filterMap (traced earlier)).getLast? ∧
      ∀ between o, later.origin? line column = some between →
        earlier.origin? between.line between.column = some o →
        (later.compose earlier).origin? line column = some (unnamed o) := by
  refine ⟨compose_origin?_eq h earlier line column, fun between o hlater hearlier => ?_⟩
  rw [compose_origin?_eq h earlier line column]
  exact getLast?_filterMap_of_origin? hlater hearlier

/-- Where a later map has a segment without an origin in the earlier one. -/
def gapped : SourceMap :=
  ((({} : SourceMap).addSource "between.js" none).1.add 0 ⟨0, 0, 0, 0, none⟩).add 0
    ⟨5, 0, 9, 0, none⟩

/-- A map of the first line alone. -/
def firstLine : SourceMap := (({} : SourceMap).addSource "a.ts" none).1.add 0 ⟨0, 0, 0, 0, none⟩

/-- The map with the gap can be made. -/
theorem built_gapped : Built gapped :=
  .add 0 5 0 9 0 (.add 0 0 0 0 0 (.addSource _ _ .empty))

/-- The map of the first line can be made. -/
theorem built_firstLine : Built firstLine :=
  .add 0 0 0 0 0 (.addSource _ _ .empty)

/-- Before the gap the two maps agree with the composition, behind it the composition goes back. -/
theorem compose_origin?_gapped :
    gapped.Ordered ∧
      (gapped.compose firstLine).origin? 0 6 =
        ((upTo 6 (gapped.row 0)).filterMap (traced firstLine)).getLast? ∧
      gapped.origin? 0 3 = some ⟨"between.js", 0, 0, none⟩ ∧
      firstLine.origin? 0 0 = some ⟨"a.ts", 0, 0, none⟩ ∧
      (gapped.compose firstLine).origin? 0 3 = some (unnamed ⟨"a.ts", 0, 0, none⟩) := by
  have hbetween : gapped.origin? 0 3 = some ⟨"between.js", 0, 0, none⟩ := by decide
  have hfirst : firstLine.origin? 0 0 = some ⟨"a.ts", 0, 0, none⟩ := by decide
  exact ⟨built_gapped.ordered, (compose_origin? built_gapped.ordered firstLine 0 6).1, hbetween,
    hfirst, (compose_origin? built_gapped.ordered firstLine 0 3).2 _ _ hbetween hfirst⟩

/-- Behind a segment that has no origin in the earlier map, a composition still gives the origin of
the segment before it, where the two maps one after the other give none. -/
theorem not_forall_compose_origin?_eq_bind :
    ¬ ∀ later earlier : SourceMap, Built later → Built earlier →
      (∀ line ∈ later.lines, ∀ s ∈ line, s.source.toNat < later.sources.length) →
      ∀ line column, ((later.compose earlier).origin? line column).map unnamed =
        ((later.origin? line column).bind fun between =>
          earlier.origin? between.line between.column).map unnamed := by
  intro h
  have hgap := h gapped firstLine built_gapped built_firstLine (by decide) 0 6
  exact absurd hgap (by decide)

end ScriptModules.SourceMap

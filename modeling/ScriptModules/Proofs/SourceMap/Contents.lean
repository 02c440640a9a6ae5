import ScriptModules.Proofs.SourceMap.Order

/-!
# Contents of sources

A source and its content have the same index. New maps, compositions and added sources keep as many
contents as sources. A document need not: its contents are taken as they are, unless there are none.
A content that is added then belongs to another source, or to none.
-/

namespace ScriptModules.SourceMap

variable {m : SourceMap} {d? : Option Document} {path : String} {content : Option String}

/-- The maps that can be made, each with the document that it started from if it was read. -/
inductive Started : Option Document → SourceMap → Prop
  | empty : Started none {}
  | identity (path source : String) : Started none (identity path source)
  | ofJson {text : String} {d : Document} {m : SourceMap} :
      Document.parse text = .ok d → ofJson text = .ok m → Started (some d) m
  | compose {d? d?' : Option Document} {later earlier : SourceMap} :
      Started d? later → Started d?' earlier → Started none (later.compose earlier)
  | addSource {d? : Option Document} {m : SourceMap} (path : String) (content : Option String) :
      Started d? m → Started d? (m.addSource path content).1
  | add {d? : Option Document} {m : SourceMap}
      (line column source originalLine originalColumn : UInt32) :
      Started d? m →
      Started d? (m.add line.toNat ⟨column, source, originalLine, originalColumn, none⟩)

/-- A document that tells the content of every source, known or not, or of none at all. -/
def Document.IsComplete (d : Document) : Prop :=
  d.contents = [] ∨ d.contents.length = d.sources.length

/-- A source that is added is listed at the index that adding it gives, with its content. -/
def Lists (m : SourceMap) (path : String) (content : Option String) : Prop :=
  (m.addSource path content).1.sources[(m.addSource path content).2.toNat]? = some path ∧
    (m.addSource path content).1.contents[(m.addSource path content).2.toNat]? = some content

/-- Adding a source keeps it whether there is a content for each source. -/
theorem length_contents_addSource_iff (m : SourceMap) (path : String) (content : Option String) :
    (m.addSource path content).1.contents.length = (m.addSource path content).1.sources.length ↔
      m.contents.length = m.sources.length := by
  unfold addSource
  split
  · rfl
  · simp

/-- A map that is read has as many contents as sources when its document is complete. -/
theorem length_contents_ofJson_iff {text : String} {d : Document} (hd : Document.parse text = .ok d)
    (h : ofJson text = .ok m) : m.contents.length = m.sources.length ↔ d.IsComplete := by
  rw [ofJson, hd] at h
  simp only [Document.toMap] at h
  split at h
  · cases h
  split at h
  · cases h
  obtain rfl := Except.ok.inj h
  cases hcontents : d.contents with
  | nil => simp [Document.IsComplete, hcontents]
  | cons content rest => simp [Document.IsComplete, hcontents]

/-- Following a segment keeps as many contents as sources. -/
theorem length_contents_compose (later earlier : SourceMap) :
    (later.compose earlier).contents.length = (later.compose earlier).sources.length := by
  refine compose_induction (P := fun m => m.contents.length = m.sources.length) rfl
    fun m line s h => ?_
  unfold follow
  split
  · exact h
  · exact (length_contents_addSource_iff _ _ _).mpr h

/-- There is a content for each source if the document was complete, or if there was none. -/
theorem Started.length_contents_iff (h : Started d? m) :
    m.contents.length = m.sources.length ↔ ∀ d ∈ d?, d.IsComplete := by
  induction h with
  | empty => simp
  | identity path source => simp [SourceMap.identity, ofLines]
  | ofJson hd h => simpa using length_contents_ofJson_iff hd h
  | compose _ _ _ _ => simpa using length_contents_compose _ _
  | addSource path content _ ih => rw [length_contents_addSource_iff, ih]
  | add _ _ _ _ _ _ ih => exact ih

/-- A new source is listed last, with its content. -/
theorem addSource_of_not_mem (h : path ∉ m.sources) (content : Option String) :
    m.addSource path content =
      ({ m with sources := m.sources ++ [path], contents := m.contents ++ [content] },
        m.sources.length.toUInt32) := by
  have hfind : m.sources.findIdx? (· == path) = none := by
    refine List.findIdx?_eq_none_iff.mpr fun other hother => ?_
    rw [beq_eq_false_iff_ne]
    rintro rfl
    exact h hother
  rw [addSource, hfind]

/-- The index that is given for a new source is its own as long as 32 bits can tell it. -/
theorem getElem?_sources_addSource_iff (h : path ∉ m.sources) (content : Option String) :
    (m.addSource path content).1.sources[(m.addSource path content).2.toNat]? = some path ↔
      m.sources.length < UInt32.size := by
  rw [addSource_of_not_mem h]
  have hindex : m.sources.length.toUInt32.toNat = m.sources.length % UInt32.size :=
    UInt32.toNat_ofNat'
  dsimp only
  rw [hindex]
  by_cases hsmall : m.sources.length < UInt32.size
  · rw [Nat.mod_eq_of_lt hsmall, List.getElem?_concat_length]
    exact ⟨fun _ => hsmall, fun _ => rfl⟩
  · have hlt : m.sources.length % UInt32.size < m.sources.length :=
      Nat.lt_of_lt_of_le (Nat.mod_lt _ (by decide)) (Nat.le_of_not_lt hsmall)
    rw [List.getElem?_append_left hlt]
    exact ⟨fun hpath => absurd (List.mem_of_getElem? hpath) h, fun hsmall' => absurd hsmall' hsmall⟩

/-- A content that is added goes to the end of the contents. -/
theorem getElem?_concat_iff (contents : List (Option String)) (content : Option String) (n : Nat) :
    (contents ++ [content])[n]? = some content ↔
      contents.length = n ∨ contents[n]? = some content := by
  rcases Nat.lt_trichotomy n contents.length with hn | rfl | hn
  · rw [List.getElem?_append_left hn]
    exact ⟨Or.inr, fun h => h.resolve_left (by omega)⟩
  · simp
  · rw [List.getElem?_eq_none (by simp; omega), List.getElem?_eq_none (by omega)]
    simp only [reduceCtorEq, or_false, false_iff]
    omega

/-- A new source is listed with its content when 32 bits can tell its index and there were as many
contents as sources, or the contents had that one at its index by chance. -/
theorem lists_iff (h : path ∉ m.sources) :
    m.Lists path content ↔ m.sources.length < UInt32.size ∧
      (m.contents.length = m.sources.length ∨
        m.contents[m.sources.length]? = some content) := by
  rw [Lists, getElem?_sources_addSource_iff h, and_congr_right_iff]
  intro hsmall
  have hindex : m.sources.length.toUInt32.toNat = m.sources.length :=
    UInt32.toNat_ofNat_of_lt' hsmall
  rw [addSource_of_not_mem h]
  dsimp only
  rw [hindex, getElem?_concat_iff]

/-- A map has as many contents as sources exactly when it was not read from a document that tells
some contents but not one for each source, or more. Exactly then every new source is listed with its
content, apart from chance and from indices beyond 32 bits. -/
theorem Started.lists_iff_isComplete (h : Started d? m) :
    (m.contents.length = m.sources.length ↔ ∀ d ∈ d?, d.IsComplete) ∧
    ∀ path ∉ m.sources, ∀ content, m.Lists path content ↔ m.sources.length < UInt32.size ∧
      ((∀ d ∈ d?, d.IsComplete) ∨ m.contents[m.sources.length]? = some content) := by
  refine ⟨h.length_contents_iff, fun path hpath content => ?_⟩
  rw [lists_iff hpath, h.length_contents_iff]

/-- A document with a content for the first of its two sources. -/
def halfTold : String :=
  "\x7b\"version\":3,\"sources\":[\"a.ts\",\"b.ts\"],\"sourcesContent\":[\"a\"]," ++
    "\"mappings\":\"\"\x7d"

/-- The map that is read from it. -/
def halfToldMap : SourceMap :=
  { sources := ["a.ts", "b.ts"], contents := [some "a"], lines := [[]] }

/-- The document is read with its sources and contents. -/
theorem parse_halfTold :
    Document.parse halfTold = .ok ⟨3, none, ["a.ts", "b.ts"], [some "a"], [], ""⟩ := by
  decide +kernel

/-- The document is read as the map. -/
theorem ofJson_halfTold : ofJson halfTold = .ok halfToldMap := by
  rw [ofJson, parse_halfTold]
  decide +kernel

/-- The map started from the document. -/
theorem started_halfTold :
    Started (some ⟨3, none, ["a.ts", "b.ts"], [some "a"], [], ""⟩) halfToldMap :=
  .ofJson parse_halfTold ofJson_halfTold

/-- The content of a third source becomes that of the second. -/
theorem Started.lists_iff_isComplete_halfTold :
    Started (some ⟨3, none, ["a.ts", "b.ts"], [some "a"], [], ""⟩) halfToldMap ∧
      "c.ts" ∉ halfToldMap.sources ∧
      (halfToldMap.addSource "c.ts" (some "c")).1.contents = [some "a", some "c"] ∧
      ¬ halfToldMap.Lists "c.ts" (some "c") := by
  have hnew : "c.ts" ∉ halfToldMap.sources := by decide
  refine ⟨started_halfTold, hnew, by decide, ?_⟩
  rw [started_halfTold.lists_iff_isComplete.2 "c.ts" hnew (some "c")]
  simp [Document.IsComplete, halfToldMap]

/-- Not every map that can be made lists a new source with its content. -/
theorem not_forall_lists :
    ¬ ∀ (d? : Option Document) (m : SourceMap), Started d? m →
      m.contents.length = m.sources.length ∧
      ∀ path ∉ m.sources, ∀ content, m.sources.length < UInt32.size → m.Lists path content := by
  intro h
  have hlists := (h _ _ started_halfTold).2 "c.ts" (by decide) (some "c") (by decide)
  exact absurd hlists.2 (by decide)

end ScriptModules.SourceMap

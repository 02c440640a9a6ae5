import ScriptModules.Proofs.Json.Written
import ScriptModules.Proofs.SourceMap.Mappings

/-!
# Reading a written map back

The document of a map reads back as the map: each member gives its field back, and the mappings
text gives the lines back. A document does not tell how many texts of sources are unknown when
all of them are, and not that there are no lines at all.
-/

namespace ScriptModules.SourceMap

open Json (Ends Gathers Opens Place Reads Value)

/-- A text is read back. -/
theorem reads_string (s : String) : Reads readString (Value.string s).chars s := by
  intro p more h _
  rw [Value.chars, Json.quote, List.cons_append, List.append_assoc] at h
  have hskip := Place.skipBlanks_of_not_blank h (by simp [Place.IsBlank])
  obtain ⟨q, hq, hrest⟩ := Json.readText_quote (Place.rest_next h)
  exact ⟨q, by simp [readString, hskip, h, hq], hrest⟩

/-- A text or nothing is read back. -/
theorem reads_optional (s? : Option String) :
    Reads readOptional (Value.ofOption s?).chars s? := by
  intro p more h hends
  cases s? with
  | none =>
    obtain ⟨rest, line, column⟩ := p
    obtain rfl : rest = 'n' :: 'u' :: 'l' :: 'l' :: more := h
    have hskip := Place.skipBlanks_of_not_blank
      (p := ⟨'n' :: 'u' :: 'l' :: 'l' :: more, line, column⟩) rfl (by simp [Place.IsBlank])
    exact ⟨_, by simp [readOptional, hskip, Json.readWord, Place.next, Except.map]; rfl, rfl⟩
  | some s =>
    obtain ⟨q, hq, hrest⟩ := reads_string s p more h hends
    have hskip := Place.skipBlanks_of_not_blank (p := p) (c := '\x22')
      (by rw [h]; rfl) (by simp [Place.IsBlank])
    refine ⟨q, ?_, hrest⟩
    have hquote : p.rest = '\x22' :: _ := h
    simp [readOptional, hskip, hquote, hq, Except.map]

/-- A text or nothing may stand first in a list. -/
theorem opens_optional (s? : Option String) : Opens (Value.ofOption s?).chars := by
  cases s? with
  | none => exact ⟨'n', _, rfl, by simp [Place.IsBlank], by decide⟩
  | some s => exact Json.opens_quote s

/-- Lists read back when their items do. -/
theorem reads_list {α : Type} {item : Place → Except Json.Fault (α × Place)} {value : α → Value}
    (hread : ∀ x, Reads item (value x).chars x) (hopens : ∀ x, Opens (value x).chars)
    (xs : List α) : Reads (readList item) (Value.array (xs.map value)).chars xs := by
  intro p more h _
  rw [Value.chars, List.cons_append, List.append_assoc] at h
  have hskip := Place.skipBlanks_of_not_blank h (by simp [Place.IsBlank])
  have hfuel : xs.length < p.rest.length + 1 := by
    have := Json.length_le_itemChars (xs.map value)
    rw [h, List.length_cons, List.length_append, List.length_append, List.length_singleton]
    rw [List.length_map] at this
    omega
  obtain ⟨q, hq, hrest⟩ := Json.readItems_written hread hopens (fun _ => rfl) xs
    (Place.rest_next h) hfuel
  refine ⟨q, ?_, hrest⟩
  simp only [readList, hskip, h] at hq ⊢
  simpa using hq

/-- A list of texts is read back. -/
theorem reads_strings (l : List String) :
    Reads (readList readString) (Value.array (l.map .string)).chars l :=
  reads_list reads_string Json.opens_quote l

/-- A list of texts or nothing is read back. -/
theorem reads_optionals (l : List (Option String)) :
    Reads (readList readOptional) (Value.array (l.map Value.ofOption)).chars l :=
  reads_list reads_optional opens_optional l

/-- The version that is written reads back. -/
theorem reads_version : Reads readWord32 (Value.ofNat 3).chars 3 := by
  rintro ⟨rest, line, column⟩ more h ⟨c, tail, rfl, hc⟩
  obtain rfl : rest = '3' :: c :: tail := h
  have hskip := Place.skipBlanks_of_not_blank (p := ⟨'3' :: c :: tail, line, column⟩) rfl
    (by simp [Place.IsBlank])
  refine ⟨⟨c :: tail, line, column + 1⟩, ?_, rfl⟩
  rcases hc with rfl | rfl | rfl <;>
    simp [readWord32, hskip, Json.readNumber, Json.readRaised, Json.finishWhole, Json.takeDigits,
      Json.maxInteger, Place.skipDigits, bind, Except.bind]

/-- A member whose field has not been read yet sets its field. -/
theorem reads_member {α : Type} {d d' : Draft} {key : String} {v : Value} {x : α}
    {read : Place → Except Json.Fault (α × Place)} (hread : Reads read v.chars x)
    (hmember : ∀ p q r, Json.readColon p = .ok q → read q = .ok (x, r) →
      readMember d key p = .ok (d', r)) :
    Reads (readMember d key) (':' :: v.chars) d' := by
  intro p more h hends
  obtain ⟨q, hq, hrest⟩ := hread p.next more (Place.rest_next h) hends
  exact ⟨q, hmember p _ q (Json.readColon_written h) hq, hrest⟩

/-- The texts of sources that a document tells. -/
def toldContents (m : SourceMap) : Option (List (Option String)) :=
  if m.contents.all Option.isNone then none else some m.contents

/-- The draft of a document that was read to its end. -/
def draftOf (m : SourceMap) : Draft :=
  ⟨some 3, m.file.map some, some m.sources, m.toldContents, some m.names, some m.mappings⟩

/-- The members of a written document. -/
def writtenMembers (m : SourceMap) : List (String × Value) :=
  [("version", Value.ofNat 3)] ++ m.file.toList.map (fun f => ("file", Value.string f)) ++
    [("sources", Value.array (m.sources.map .string))] ++
    m.toldContents.toList.map (fun l => ("sourcesContent", Value.array (l.map Value.ofOption))) ++
    [("names", Value.array (m.names.map .string)), ("mappings", .string m.mappings)]

/-- A map is written as its members. -/
theorem toValue_eq (m : SourceMap) : m.toValue = .object m.writtenMembers := by
  unfold toValue writtenMembers toldContents
  split <;> simp

/-- The written members set all fields of a document, one after another. -/
theorem gathers_writtenMembers (m : SourceMap) :
    Gathers readMember m.writtenMembers {} m.draftOf := by
  have hversion : Gathers readMember [("version", Value.ofNat 3)]
      {} ⟨some 3, none, none, none, none, none⟩ :=
    .single (reads_member reads_version fun p q r hcolon hread => by
      simp [readMember, hcolon, hread, bind, Except.bind, pure, Except.pure])
  have hfile : Gathers readMember (m.file.toList.map fun f => ("file", Value.string f))
      ⟨some 3, none, none, none, none, none⟩
      ⟨some 3, m.file.map some, none, none, none, none⟩ := by
    cases m.file with
    | none => exact .nil _
    | some f =>
      exact .single (reads_member (reads_optional (some f)) fun p q r hcolon hread => by
        simp [readMember, hcolon, hread, bind, Except.bind, pure, Except.pure])
  have hsources : Gathers readMember [("sources", Value.array (m.sources.map .string))]
      ⟨some 3, m.file.map some, none, none, none, none⟩
      ⟨some 3, m.file.map some, some m.sources, none, none, none⟩ :=
    .single (reads_member (reads_strings m.sources) fun p q r hcolon hread => by
      simp [readMember, hcolon, hread, bind, Except.bind, pure, Except.pure])
  have hcontents : Gathers readMember
      (m.toldContents.toList.map fun l =>
        ("sourcesContent", Value.array (l.map Value.ofOption)))
      ⟨some 3, m.file.map some, some m.sources, none, none, none⟩
      ⟨some 3, m.file.map some, some m.sources, m.toldContents, none, none⟩ := by
    cases m.toldContents with
    | none => exact .nil _
    | some l =>
      exact .single (reads_member (reads_optionals l) fun p q r hcolon hread => by
        simp [readMember, hcolon, hread, bind, Except.bind, pure, Except.pure])
  have hnames : Gathers readMember [("names", Value.array (m.names.map .string))]
      ⟨some 3, m.file.map some, some m.sources, m.toldContents, none, none⟩
      ⟨some 3, m.file.map some, some m.sources, m.toldContents, some m.names, none⟩ :=
    .single (reads_member (reads_strings m.names) fun p q r hcolon hread => by
      simp [readMember, hcolon, hread, bind, Except.bind, pure, Except.pure])
  have hmappings : Gathers readMember [("mappings", Value.string m.mappings)]
      ⟨some 3, m.file.map some, some m.sources, m.toldContents, some m.names, none⟩
      m.draftOf :=
    .single (reads_member (reads_string m.mappings) fun p q r hcolon hread => by
      simp [readMember, hcolon, hread, draftOf, bind, Except.bind, pure, Except.pure])
  exact (((hversion.append hfile).append hsources).append hcontents).append
    (hnames.append hmappings)

/-- The document of a map. -/
def documentOf (m : SourceMap) : Document :=
  ⟨3, m.file, m.sources, m.toldContents.getD [], m.names, m.mappings⟩

/-- A written map is read as its document. -/
theorem parse_toJson (m : SourceMap) : Document.parse m.toJson = .ok m.documentOf := by
  have hchars : (Place.ofText m.toJson).rest = (Value.object m.writtenMembers).chars := by
    rw [Place.ofText, toJson, toValue_eq, Value.compact, String.toList_ofList]
  obtain ⟨hskip, ⟨rest, hrest⟩, q, hq, hend⟩ :=
    Json.readMembers_document (gathers_writtenMembers m) hchars
  have hfinish : m.draftOf.finish q = .ok m.documentOf := by
    cases hfile : m.file <;>
      simp [Draft.finish, draftOf, documentOf, hfile, bind, Except.bind, pure, Except.pure]
  simp only [Document.parse, hskip, bind, Except.bind, pure, Except.pure]
  rw [hq]
  simp [hrest, hfinish, hend]

/-- The document of a map reads back as the map. The map has a line, its segments are in order
and there is a content, known or not, for each source. -/
theorem ofJson_toJson_of_ordered {m : SourceMap} (h : m.Ordered) (hne : m.lines ≠ [])
    (hlength : m.contents.length = m.sources.length) : ofJson m.toJson = .ok m := by
  have hcontents : (if (m.toldContents.getD []).isEmpty then m.sources.map fun _ => none
      else m.toldContents.getD []) = m.contents := by
    unfold toldContents
    split
    · rename_i hnone
      have hunknown : m.contents = List.replicate m.contents.length none :=
        List.eq_replicate_of_mem (by simpa using hnone)
      rw [Option.getD_none, List.isEmpty_nil, if_pos rfl, List.map_const', ← hlength,
        ← hunknown]
    · rename_i hsome
      have : m.contents ≠ [] := by
        rintro hnil
        simp [hnil] at hsome
      simp [this]
  simp only [ofJson, parse_toJson, Document.toMap, documentOf, linesOf_mappings h hne]
  simp only [hcontents]
  rfl

/-- Every map that can be made reads back from its document, when it has a line and a content,
known or not, for each source. -/
theorem ofJson_toJson {m : SourceMap} (h : Built m) (hne : m.lines ≠ [])
    (hlength : m.contents.length = m.sources.length) : ofJson m.toJson = .ok m :=
  ofJson_toJson_of_ordered h.ordered hne hlength

/-- A map with a line between its segments that has none, and with fields of all 32 bits. -/
def distant : SourceMap :=
  (((addSource "a.ts" (some "x\n") {}).1.add (0 : UInt32).toNat ⟨4294967295, 0, 7, 1, none⟩).add
    (0 : UInt32).toNat ⟨3, 0, 4294967295, 0, none⟩).add
    (2 : UInt32).toNat ⟨0, 4294967295, 0, 4294967295, none⟩

/-- A map with an empty line and with fields of 32 bits is read back. -/
theorem ofJson_toJson_distant :
    Built distant ∧ distant.lines.length = 3 ∧ distant.contents.length = distant.sources.length ∧
      ofJson distant.toJson = .ok distant := by
  have hbuilt : Built distant :=
    (((Built.empty.addSource "a.ts" (some "x\n")).add 0 4294967295 0 7 1).add
      0 3 0 4294967295 0).add 2 0 4294967295 0 4294967295
  exact ⟨hbuilt, by decide, by decide, ofJson_toJson hbuilt (by decide) (by decide)⟩

end ScriptModules.SourceMap

import ScriptModules.Proofs.Except
import ScriptModules.Proofs.SourceMap.Columns
import ScriptModules.Proofs.Text.Offsets

/-!
# Where a mappings text stops being read

A fault tells the byte of the character that is no digit. Reading does not take that from the text
but adds up the lengths of the segments before it: an empty piece between separators counts for
nothing, and the end of a line counts twice. So the fault tells the right byte only where as many
empty pieces as semicolons stand before it.
-/

namespace ScriptModules.SourceMap

open Text (bytesOf ended)

/-- The fault of a character that is no digit. -/
def notDigit (offset : Nat) : MappingsFault := ⟨offset, "invalid base64 digit"⟩

/-- A digit of a quantity. -/
def isQuantityDigit (c : Char) : Bool := (Text.Base64.value? c).isSome

/-- A character that a mappings text may hold: a digit or a separator. -/
def belongs (c : Char) : Bool := isQuantityDigit c || c == ',' || c == ';'

/-- A digit of a quantity is one of the alphabet. -/
theorem mem_alphabet_of_isQuantityDigit {c : Char} (h : isQuantityDigit c = true) :
    c ∈ Text.Base64.alphabet := by
  obtain ⟨n, hn⟩ := Option.isSome_iff_exists.mp h
  rw [Text.Base64.value?, List.findIdx?_eq_some_iff_getElem] at hn
  obtain ⟨hlength, hc, -⟩ := hn
  rw [← beq_iff_eq.mp hc]
  exact List.getElem_mem hlength

/-- What belongs in mappings is one byte. -/
theorem utf8Size_of_belongs {c : Char} (h : belongs c = true) : c.utf8Size = 1 := by
  have hall : (',' :: ';' :: Text.Base64.alphabet).all (·.utf8Size == 1) = true := by decide
  refine beq_iff_eq.mp (List.all_eq_true.mp hall c ?_)
  simp only [belongs, Bool.or_eq_true, beq_iff_eq] at h
  rcases h with (h | rfl) | rfl
  · exact List.mem_cons_of_mem _ (List.mem_cons_of_mem _ (mem_alphabet_of_isQuantityDigit h))
  · exact List.mem_cons_self
  · exact List.mem_cons_of_mem _ List.mem_cons_self

/-- Characters that belong to a mappings text have one byte each. -/
theorem bytesOf_eq_length {cs : List Char} (h : ∀ c ∈ cs, belongs c = true) :
    bytesOf cs = cs.length := by
  induction cs with
  | nil => rfl
  | cons c rest ih =>
    rw [Text.bytesOf_cons, utf8Size_of_belongs (h c List.mem_cons_self),
      ih fun c hc => h c (List.mem_cons_of_mem _ hc), List.length_cons, Nat.add_comm]

/-- Quantities that were read consist of digits. -/
theorem isQuantityDigit_of_decodeQuantities {offset word shift : Nat} {cs : List Char}
    {values : List Int} (h : decodeQuantities offset word shift cs = .ok values) :
    ∀ c ∈ cs, isQuantityDigit c = true := by
  induction cs generalizing offset word shift values with
  | nil => simp
  | cons c rest ih =>
    rw [decodeQuantities] at h
    cases hdigit : Text.Base64.value? c with
    | none => simp [hdigit] at h
    | some d =>
      have hc : isQuantityDigit c = true := by simp [isQuantityDigit, hdigit]
      simp only [hdigit] at h
      split at h
      · obtain ⟨more, hmore, -⟩ := exists_of_bind_eq_ok h
        exact List.forall_mem_cons.mpr ⟨hc, ih hmore⟩
      · split at h
        · cases h
        · exact List.forall_mem_cons.mpr ⟨hc, ih h⟩

/-- A segment that stops at a character which is no digit: there are only digits before it. -/
theorem exists_of_decodeQuantities_eq_notDigit {offset word shift o : Nat} {cs : List Char}
    (h : decodeQuantities offset word shift cs = .error (notDigit o)) :
    ∃ front c back, cs = front ++ c :: back ∧ (∀ b ∈ front, isQuantityDigit b = true) ∧
      isQuantityDigit c = false ∧ o = offset + front.length := by
  induction cs generalizing offset word shift with
  | nil =>
    rw [decodeQuantities] at h
    split at h
    · cases h
    · simp [notDigit] at h
  | cons c rest ih =>
    rw [decodeQuantities] at h
    cases hdigit : Text.Base64.value? c with
    | none =>
      simp only [hdigit, notDigit, Except.error.injEq, MappingsFault.mk.injEq, and_true] at h
      exact ⟨[], c, rest, rfl, by simp, by simp [isQuantityDigit, hdigit], h.symm⟩
    | some d =>
      have hc : isQuantityDigit c = true := by simp [isQuantityDigit, hdigit]
      have longer {word shift : Nat}
          (h : decodeQuantities (offset + 1) word shift rest = .error (notDigit o)) :
          ∃ front b back, c :: rest = front ++ b :: back ∧
            (∀ b ∈ front, isQuantityDigit b = true) ∧ isQuantityDigit b = false ∧
            o = offset + front.length := by
        obtain ⟨front, b, back, rfl, hfront, hb, rfl⟩ := ih h
        exact ⟨c :: front, b, back, rfl, List.forall_mem_cons.mpr ⟨hc, hfront⟩, hb, by
          rw [List.length_cons]; omega⟩
      simp only [hdigit] at h
      split at h
      · rcases eq_error_or_exists_of_bind_eq_error h with h | ⟨more, -, h⟩
        · exact longer h
        · cases h
      · split at h
        · simp [notDigit] at h
        · exact longer h

/-- Segments of digits are not refused for a digit. -/
theorem Fields.step_ne_notDigit (f : Fields) (offset o : Nat) (values : List Int) :
    f.step offset values ≠ .error (notDigit o) := by
  unfold Fields.step
  split <;> simp [notDigit]

/-- The pieces of a text between separators of either kind. -/
def piecesOf (cs : List Char) : List (List Char) :=
  (Text.splitAt ';' cs).flatMap (Text.splitAt ',')

/-- How many empty pieces there are, each with a separator behind it. -/
def emptyPieces (cs : List Char) : Nat := (piecesOf cs).dropLast.countP List.isEmpty

/-- All pieces consist of digits. -/
def AllDigits (pieces : List (List Char)) : Prop :=
  ∀ piece ∈ pieces, ∀ c ∈ piece, isQuantityDigit c = true

/-- Pieces of which `front` and the digits `read` come before a character that is no digit. -/
def StopsAfter (pieces front : List (List Char)) (read : List Char) : Prop :=
  ∃ c more back, pieces = front ++ (read ++ c :: more) :: back ∧ AllDigits front ∧
    (∀ b ∈ read, isQuantityDigit b = true) ∧ belongs c = false

/-- Pieces consist of digits if the first one and the others do. -/
theorem AllDigits.cons {piece : List Char} {pieces : List (List Char)}
    (hpiece : ∀ c ∈ piece, isQuantityDigit c = true) (h : AllDigits pieces) :
    AllDigits (piece :: pieces) :=
  List.forall_mem_cons.mpr ⟨hpiece, h⟩

/-- One more piece of digits may stand at the front. -/
theorem StopsAfter.cons {piece read : List Char} {pieces front : List (List Char)}
    (hpiece : ∀ c ∈ piece, isQuantityDigit c = true) (h : StopsAfter pieces front read) :
    StopsAfter (piece :: pieces) (piece :: front) read := by
  obtain ⟨c, more, back, rfl, hfront, hread, hc⟩ := h
  exact ⟨c, more, back, rfl, hfront.cons hpiece, hread, hc⟩

/-- Past the pieces of a line the offset has counted all but the empty ones. -/
theorem offset_of_decodeLine {f g : Fields} {offset o : Nat} {line line' : List Segment}
    {pieces : List (List Char)}
    (h : decodeLine f offset line (pieces.filter (!·.isEmpty)) = .ok (g, o, line')) :
    AllDigits pieces ∧ o + pieces.countP List.isEmpty = offset + (ended ',' pieces).length := by
  induction pieces generalizing f offset line with
  | nil =>
    simp only [List.filter_nil, decodeLine, Except.ok.injEq, Prod.mk.injEq] at h
    exact ⟨by simp [AllDigits], by simp [h.2.1]⟩
  | cons piece rest ih =>
    cases piece with
    | nil =>
      obtain ⟨hdigits, ho⟩ := ih h
      exact ⟨hdigits.cons (by simp), by simp; omega⟩
    | cons c cs =>
      rw [List.filter_cons_of_pos rfl, decodeLine] at h
      obtain ⟨values, hvalues, h⟩ := exists_of_bind_eq_ok h
      obtain ⟨⟨f', segment?⟩, -, h⟩ := exists_of_bind_eq_ok h
      obtain ⟨hdigits, ho⟩ := ih h
      refine ⟨hdigits.cons (isQuantityDigit_of_decodeQuantities hvalues), ?_⟩
      rw [List.countP_cons_of_neg (by simp)]
      simp only [Text.ended_cons, List.length_append, List.length_cons] at ho ⊢
      omega

/-- A line that stops at a character which is no digit. -/
theorem exists_of_decodeLine_eq_notDigit {f : Fields} {offset o : Nat} {line : List Segment}
    {pieces : List (List Char)} (hpieces : ∀ piece ∈ pieces, ',' ∉ piece ∧ ';' ∉ piece)
    (h : decodeLine f offset line (pieces.filter (!·.isEmpty)) = .error (notDigit o)) :
    ∃ front read, StopsAfter pieces front read ∧
      o + front.countP List.isEmpty = offset + (ended ',' front).length + read.length := by
  induction pieces generalizing f offset line with
  | nil => cases h
  | cons piece rest ih =>
    have hrest := fun {f offset line} => @ih f offset line fun piece hpiece =>
      hpieces piece (List.mem_cons_of_mem _ hpiece)
    cases piece with
    | nil =>
      obtain ⟨front, read, hstops, ho⟩ := hrest h
      exact ⟨[] :: front, read, hstops.cons (by simp), by simp; omega⟩
    | cons d ds =>
      rw [List.filter_cons_of_pos rfl, decodeLine] at h
      rcases eq_error_or_exists_of_bind_eq_error h with h | ⟨values, hvalues, h⟩
      · obtain ⟨read, c, more, hpiece, hread, hc, rfl⟩ := exists_of_decodeQuantities_eq_notDigit h
        obtain ⟨hcomma, hsemicolon⟩ := hpieces _ List.mem_cons_self
        have hbelongs : belongs c = false := by
          have hmem : c ∈ d :: ds := by simp [hpiece]
          have hne (mark : Char) (hmark : mark ∉ d :: ds) : c ≠ mark :=
            fun heq => hmark (heq ▸ hmem)
          simp [belongs, hc, hne _ hcomma, hne _ hsemicolon]
        exact ⟨[], read, ⟨c, more, rest, by rw [hpiece]; rfl, by simp [AllDigits], hread, hbelongs⟩,
          by simp⟩
      · rcases eq_error_or_exists_of_bind_eq_error h with h | ⟨⟨f', segment?⟩, -, h⟩
        · exact absurd h (Fields.step_ne_notDigit _ _ _ _)
        · obtain ⟨front, read, hstops, ho⟩ := hrest h
          refine ⟨(d :: ds) :: front, read,
            hstops.cons (isQuantityDigit_of_decodeQuantities hvalues), ?_⟩
          rw [List.countP_cons_of_neg (by simp)]
          simp only [Text.ended_cons, List.length_append, List.length_cons] at ho ⊢
          omega

/-- Lines that stop at a character which is no digit. Each line before that is counted with one
character too many. -/
theorem exists_of_decodeLines_eq_notDigit {f : Fields} {offset o : Nat} {groups : List (List Char)}
    (hgroups : ∀ group ∈ groups, ';' ∉ group)
    (h : decodeLines f offset groups = .error (notDigit o)) :
    ∃ done group back front read, groups = done ++ group :: back ∧
      AllDigits (done.flatMap (Text.splitAt ',')) ∧
      StopsAfter (Text.splitAt ',' group) front read ∧
      o + (done.flatMap (Text.splitAt ',') ++ front).countP List.isEmpty =
        offset + done.length + (ended ';' done ++ (ended ',' front ++ read)).length := by
  induction groups generalizing f offset with
  | nil => cases h
  | cons group rest ih =>
    have hgroup := hgroups group List.mem_cons_self
    have hpieces : ∀ piece ∈ Text.splitAt ',' group, ',' ∉ piece ∧ ';' ∉ piece :=
      fun piece hpiece => ⟨Text.not_mem_of_mem_splitAt hpiece, fun hmem => hgroup
        ((Text.mem_iff_exists_mem_splitAt (by decide) group).mpr ⟨piece, hpiece, hmem⟩)⟩
    rw [decodeLines] at h
    rcases eq_error_or_exists_of_bind_eq_error h with h | ⟨⟨g, offset', line⟩, hline, h⟩
    · obtain ⟨front, read, hstops, ho⟩ := exists_of_decodeLine_eq_notDigit hpieces h
      exact ⟨[], group, rest, front, read, rfl, by simp [AllDigits], hstops, by simp; omega⟩
    · rcases eq_error_or_exists_of_bind_eq_error h with h | ⟨more, -, h⟩
      · obtain ⟨hdigits, hoffset⟩ := offset_of_decodeLine hline
        obtain ⟨done, group', back, front, read, rfl, hdone, hstops, ho⟩ :=
          ih (fun group hmem => hgroups group (List.mem_cons_of_mem _ hmem)) h
        refine ⟨group :: done, group', back, front, read, rfl, ?_, hstops, ?_⟩
        · intro piece hpiece
          rcases List.mem_append.mp hpiece with hpiece | hpiece
          · exact hdigits piece hpiece
          · exact hdone piece hpiece
        · rw [Text.ended_splitAt] at hoffset
          simp only [List.flatMap_cons, List.countP_append, Text.ended_cons, List.length_append,
            List.length_cons, List.length_nil] at hoffset ho ⊢
          omega
      · cases h

/-- Whole lines, whole pieces of one more line and the beginning of its next piece. -/
def frontOf (done front : List (List Char)) (read : List Char) : List Char :=
  ended ';' done ++ (ended ',' front ++ read)

/-- The pieces before a fault are those of the lines before, those of its line, and what was read of
its own. -/
theorem piecesOf_frontOf {done front : List (List Char)} {read : List Char}
    (hdone : ∀ group ∈ done, ';' ∉ group) (hlast : ';' ∉ ended ',' front ++ read)
    (hfront : ∀ piece ∈ front, ',' ∉ piece) (hread : ',' ∉ read) :
    piecesOf (frontOf done front read) = done.flatMap (Text.splitAt ',') ++ front ++ [read] := by
  rw [piecesOf, frontOf, Text.splitAt_ended_append hdone hlast, List.flatMap_append,
    List.flatMap_singleton, Text.splitAt_ended_append hfront hread, List.append_assoc]

/-- There is a semicolon for every line before a fault. -/
theorem count_frontOf {done front : List (List Char)} {read : List Char}
    (hdone : ∀ group ∈ done, ';' ∉ group) (hlast : ';' ∉ ended ',' front ++ read) :
    (frontOf done front read).count ';' = done.length := by
  have hended : (ended ';' done).count ';' = done.length := by
    clear hlast
    induction done with
    | nil => rfl
    | cons group rest ih =>
      rw [Text.ended_cons, List.count_append,
        List.count_eq_zero.mpr (hdone group List.mem_cons_self), List.count_cons_self,
        ih fun group hgroup => hdone group (List.mem_cons_of_mem _ hgroup), Nat.zero_add,
        List.length_cons]
  rw [frontOf, List.count_append, hended, List.count_eq_zero.mpr hlast, Nat.add_zero]

/-- A digit of a quantity belongs in mappings. -/
theorem belongs_of_isQuantityDigit {c : Char} (h : isQuantityDigit c = true) :
    belongs c = true := by
  simp [belongs, h]

/-- Digits with commas between them belong to a mappings text. -/
theorem AllDigits.belongs_ended {pieces : List (List Char)} (h : AllDigits pieces) :
    ∀ c ∈ ended ',' pieces, belongs c = true := by
  intro c hc
  rcases Text.mem_ended hc with rfl | ⟨piece, hpiece, hc⟩
  · decide
  · exact belongs_of_isQuantityDigit (h piece hpiece c hc)

/-- Everything before a fault belongs in mappings. -/
theorem belongs_frontOf {done front : List (List Char)} {read : List Char}
    (hdone : AllDigits (done.flatMap (Text.splitAt ','))) (hfront : AllDigits front)
    (hread : ∀ c ∈ read, isQuantityDigit c = true) :
    ∀ c ∈ frontOf done front read, belongs c = true := by
  intro c hc
  rcases List.mem_append.mp hc with hc | hc
  · rcases Text.mem_ended hc with rfl | ⟨group, hgroup, hc⟩
    · decide
    · have hdigits : AllDigits (Text.splitAt ',' group) := fun piece hpiece =>
        hdone piece (List.mem_flatMap.mpr ⟨group, hgroup, hpiece⟩)
      refine hdigits.belongs_ended c ?_
      rw [Text.ended_splitAt]
      exact List.mem_append_left _ hc
  · rcases List.mem_append.mp hc with hc | hc
    · exact hfront.belongs_ended c hc
    · exact belongs_of_isQuantityDigit (hread c hc)

/-- A mappings text that stops at a character which is no digit. The offset has left out the empty
pieces before the character and has counted the ends of lines twice. -/
theorem exists_of_linesOf_eq_notDigit {mappings : String} {o : Nat}
    (h : linesOf mappings = .error (notDigit o)) :
    ∃ before c after, mappings.toList = before ++ c :: after ∧ (∀ b ∈ before, belongs b = true) ∧
      belongs c = false ∧ o + emptyPieces before = bytesOf before + before.count ';' := by
  obtain ⟨done, group, back, front, read, hgroups, hdone, hstops, ho⟩ :=
    exists_of_decodeLines_eq_notDigit (fun _ => Text.not_mem_of_mem_splitAt) h
  obtain ⟨c, more, later, hpieces, hfront, hread, hc⟩ := hstops
  obtain ⟨rest, htext⟩ := Text.exists_eq_ended_append hgroups
  obtain ⟨rest', hgroup⟩ := Text.exists_eq_ended_append hpieces
  have hdoneMarks : ∀ g ∈ done, ';' ∉ g := fun g hg => Text.not_mem_of_mem_splitAt (by
    rw [hgroups]
    exact List.mem_append_left _ hg)
  have hlast : ';' ∉ ended ',' front ++ read := by
    have hsemicolon : ';' ∉ group := Text.not_mem_of_mem_splitAt (by
      rw [hgroups]
      exact List.mem_append_right _ List.mem_cons_self)
    refine fun hmem => hsemicolon ?_
    rw [hgroup, List.append_assoc, ← List.append_assoc]
    exact List.mem_append_left _ hmem
  have hfrontMarks : ∀ piece ∈ front, ',' ∉ piece := fun piece hpiece =>
    Text.not_mem_of_mem_splitAt (by
      rw [hpieces]
      exact List.mem_append_left _ hpiece)
  have hreadMarks : ',' ∉ read := fun hcomma => absurd (hread ',' hcomma) (by decide)
  have hbelongs := belongs_frontOf hdone hfront hread
  refine ⟨frontOf done front read, c, more ++ rest' ++ rest, ?_, hbelongs, hc, ?_⟩
  · rw [htext, hgroup]
    simp [frontOf]
  · rw [emptyPieces, piecesOf_frontOf hdoneMarks hlast hfrontMarks hreadMarks,
      List.dropLast_concat, ho, bytesOf_eq_length hbelongs, count_frontOf hdoneMarks hlast, frontOf]
    omega

/-- A fault of the mappings is told of a document that is read otherwise. -/
theorem exists_of_ofJson_eq_mappings {json : String} {fault : MappingsFault}
    (h : ofJson json = .error (.mappings fault)) :
    ∃ d, Document.parse json = .ok d ∧ linesOf d.mappings = .error fault := by
  unfold ofJson at h
  split at h
  · cases h
  · rename_i d hd
    refine ⟨d, hd, ?_⟩
    rw [Document.toMap] at h
    split at h
    · cases h
    · split at h
      · rename_i fault' hlines
        obtain rfl : fault' = fault := by simpa using h
        exact hlines
      · cases h

/-- A document whose mappings hold a character that is no digit. The fault is at the byte of the
first such character just when as many empty pieces as semicolons come before it. -/
theorem exists_first_of_ofJson_notDigit {json : String} {offset : Nat}
    (h : ofJson json = .error (.mappings ⟨offset, "invalid base64 digit"⟩)) :
    ∃ d before c after, Document.parse json = .ok d ∧
      d.mappings.toList = before ++ c :: after ∧ (∀ b ∈ before, belongs b = true) ∧
      belongs c = false ∧
      offset + emptyPieces before = bytesOf before + before.count ';' ∧
      (offset = bytesOf before ↔ emptyPieces before = before.count ';') := by
  obtain ⟨d, hd, hlines⟩ := exists_of_ofJson_eq_mappings h
  obtain ⟨before, c, after, htext, hbefore, hc, ho⟩ := exists_of_linesOf_eq_notDigit hlines
  exact ⟨d, before, c, after, hd, htext, hbefore, hc, ho, by omega⟩

/-- A document with three empty pieces and two semicolons before the character that is no digit. -/
def misplaced : String :=
  "\x7b\"version\":3,\"sources\":[],\"mappings\":\",,AAAA;;A!\"\x7d"

/-- The document is read with its mappings. -/
theorem parse_misplaced : Document.parse misplaced = .ok ⟨3, none, [], [], [], ",,AAAA;;A!"⟩ := by
  decide +kernel

/-- The document is refused, with the offset that reading counts. -/
theorem ofJson_misplaced :
    ofJson misplaced = .error (.mappings ⟨8, "invalid base64 digit"⟩) := by
  rw [ofJson, parse_misplaced]
  decide +kernel

/-- The offset that is told counts both semicolons twice and none of the three empty pieces, so that
it misses the character. -/
theorem exists_first_of_ofJson_notDigit_misplaced :
    ofJson misplaced = .error (.mappings ⟨8, "invalid base64 digit"⟩) ∧
      ∃ d before c after, Document.parse misplaced = .ok d ∧
        d.mappings.toList = before ++ c :: after ∧ (∀ b ∈ before, belongs b = true) ∧
        belongs c = false ∧ 8 + emptyPieces before = bytesOf before + before.count ';' ∧
        (8 = bytesOf before ↔ emptyPieces before = before.count ';') :=
  ⟨ofJson_misplaced, exists_first_of_ofJson_notDigit ofJson_misplaced⟩

/-- The character there is the byte at index 9. -/
theorem not_forall_offset_eq_bytesOf :
    ¬ ∀ (json : String) (d : Document) (before after : List Char) (c : Char) (offset : Nat),
      Document.parse json = .ok d →
      ofJson json = .error (.mappings ⟨offset, "invalid base64 digit"⟩) →
      d.mappings.toList = before ++ c :: after → (∀ b ∈ before, belongs b = true) →
      belongs c = false → offset = bytesOf before := by
  intro h
  have hbefore : ",,AAAA;;A".toList.all belongs = true := by decide
  have hindex := h misplaced _ ",,AAAA;;A".toList [] '!' 8 parse_misplaced ofJson_misplaced
    (by decide) (List.all_eq_true.mp hbefore) (by decide)
  revert hindex
  decide

end ScriptModules.SourceMap

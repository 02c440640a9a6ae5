import Mathlib.Algebra.Group.Int.Defs
import Mathlib.Algebra.Group.Nat.Defs
import ScriptModules.Proofs.SourceMap.Order
import ScriptModules.Proofs.SourceMap.Quantities
import ScriptModules.Proofs.Text.Split

/-!
# Reading mappings back

Reading a mappings text undoes writing it. The running fields of the reader are those of the
writer after every segment, and the differences between fields of 32 bits fit the quantities.
-/

namespace ScriptModules

/-- No digit separates segments or lines. -/
theorem Text.Base64.digit_ne_separator (n : Nat) : digit n ≠ ',' ∧ digit n ≠ ';' :=
  ⟨digit_ne_of_notMem (by decide) n, digit_ne_of_notMem (by decide) n⟩

namespace SourceMap

open Text.Base64 (digit_ne_separator)

/-- Every number is written with some digit. -/
theorem quantityDigits_ne_nil (n : Nat) : quantityDigits n ≠ [] := by
  rw [quantityDigits]
  split <;> simp

/-- Quantities hold no separators. -/
theorem separator_not_mem_quantityDigits (n : Nat) :
    ',' ∉ quantityDigits n ∧ ';' ∉ quantityDigits n := by
  induction n using Nat.strongRecOn with
  | ind n ih =>
    by_cases h : n < 32
    · rw [quantityDigits_of_lt h]
      simpa using ⟨(digit_ne_separator n).1.symm, (digit_ne_separator n).2.symm⟩
    · rw [quantityDigits_of_le (by omega)]
      obtain ⟨hcomma, hsemicolon⟩ := ih (n / 32) (by omega)
      obtain ⟨hcomma', hsemicolon'⟩ := digit_ne_separator (n % 32 + 32)
      exact ⟨by simp [hcomma, hcomma'.symm], by simp [hsemicolon, hsemicolon'.symm]⟩

/-- A number that 32 bits hold. -/
def IsWord (n : Int) : Prop := 0 ≤ n ∧ n < 2 ^ 32

/-- A number of 32 bits is a word. -/
theorem isWord_toNat (w : UInt32) : IsWord w.toNat :=
  ⟨Int.natCast_nonneg _, by exact_mod_cast w.toNat_lt⟩

/-- Words differ by no more than 32 bits hold. -/
theorem IsWord.natAbs_sub_lt {m n : Int} (hm : IsWord m) (hn : IsWord n) :
    (m - n).natAbs < 2 ^ 32 := by
  obtain ⟨hm, hm'⟩ := hm
  obtain ⟨hn, hn'⟩ := hn
  omega

@[simp] theorem word32_toNat (w : UInt32) : word32 w.toNat = w := by
  have hmod : ((w.toNat : Int).emod (Nat.pow 2 32)).toNat = w.toNat := by
    have hlt := w.toNat_lt
    change ((w.toNat : Int) % ((2 ^ 32 : Nat) : Int)).toNat = w.toNat
    omega
  rw [word32, hmod]
  simp

/-- Fields that all fit 32 bits. -/
structure Fields.Fit (f : Fields) : Prop where
  generatedColumn : IsWord f.generatedColumn
  source : IsWord f.source
  originalLine : IsWord f.originalLine
  originalColumn : IsWord f.originalColumn
  name : IsWord f.name

/-- All fields fit at the start. -/
theorem Fields.fit_zero : Fields.Fit {} := by
  constructor <;> exact ⟨by decide, by decide⟩

/-- The fields after a segment fit. -/
theorem Fields.Fit.after {f : Fields} (h : f.Fit) (s : Segment) : (f.after s).Fit where
  generatedColumn := isWord_toNat _
  source := isWord_toNat _
  originalLine := isWord_toNat _
  originalColumn := isWord_toNat _
  name := by
    cases hname : s.name with
    | none => simpa [Fields.after, hname] using h.name
    | some name => simpa [Fields.after, hname] using isWord_toNat name

/-- The fields at the start of a line fit. -/
theorem Fields.Fit.newLine {f : Fields} (h : f.Fit) :
    Fields.Fit { f with generatedColumn := 0 } :=
  { h with generatedColumn := fit_zero.generatedColumn }

/-- The differences that stand for a segment. -/
def Fields.deltas (f : Fields) (s : Segment) : List Int :=
  let g := f.after s
  [g.generatedColumn - f.generatedColumn, g.source - f.source, g.originalLine - f.originalLine,
    g.originalColumn - f.originalColumn] ++ if s.name.isSome then [g.name - f.name] else []

/-- A segment is written as its differences, one after the other. -/
theorem encodeSegment_eq (f : Fields) (s : Segment) :
    encodeSegment f s = (f.deltas s).flatMap encodeQuantity := by
  unfold encodeSegment Fields.deltas
  split <;> simp [List.flatMap_cons]

/-- The differences of a segment fit. -/
theorem Fields.Fit.natAbs_deltas_lt {f : Fields} (h : f.Fit) (s : Segment) :
    ∀ d ∈ f.deltas s, d.natAbs < 2 ^ 32 := by
  have hafter := h.after s
  have hfour : ∀ d ∈ [(f.after s).generatedColumn - f.generatedColumn,
      (f.after s).source - f.source, (f.after s).originalLine - f.originalLine,
      (f.after s).originalColumn - f.originalColumn], d.natAbs < 2 ^ 32 := by
    simp only [List.forall_mem_cons, List.not_mem_nil, false_imp_iff, implies_true, and_true]
    exact ⟨hafter.generatedColumn.natAbs_sub_lt h.generatedColumn,
      hafter.source.natAbs_sub_lt h.source, hafter.originalLine.natAbs_sub_lt h.originalLine,
      hafter.originalColumn.natAbs_sub_lt h.originalColumn⟩
  intro d hd
  rcases List.mem_append.mp hd with hd | hd
  · exact hfour d hd
  · split at hd
    · obtain rfl := List.mem_singleton.mp hd
      exact hafter.name.natAbs_sub_lt h.name
    · cases hd

/-- Moving on by the differences of a segment gives the segment. -/
theorem Fields.step_deltas (f : Fields) (offset : Nat) (s : Segment) :
    f.step offset (f.deltas s) = .ok (f.after s, some s) := by
  have hcancel (a b : Int) : b + (a - b) = a := by omega
  obtain ⟨generatedColumn, source, originalLine, originalColumn, name⟩ := s
  cases name <;> simp [deltas, step, after, hcancel]

/-- A written segment is not empty and holds no separators. -/
theorem encodeSegment_ne_nil (f : Fields) (s : Segment) : encodeSegment f s ≠ [] := by
  rw [encodeSegment_eq, Fields.deltas]
  simp [List.flatMap_cons, encodeQuantity, quantityDigits_ne_nil]

/-- No separator is written in a segment. -/
theorem separator_not_mem_encodeSegment (f : Fields) (s : Segment) :
    ',' ∉ encodeSegment f s ∧ ';' ∉ encodeSegment f s := by
  rw [encodeSegment_eq]
  constructor <;> intro hmem
  · obtain ⟨d, -, hd⟩ := List.mem_flatMap.mp hmem
    exact (separator_not_mem_quantityDigits _).1 hd
  · obtain ⟨d, -, hd⟩ := List.mem_flatMap.mp hmem
    exact (separator_not_mem_quantityDigits _).2 hd

/-- The written segments of a line. -/
def encodedSegments (f : Fields) : List Segment → List (List Char)
  | [] => []
  | s :: rest => encodeSegment f s :: encodedSegments (f.after s) rest

/-- Segments of a line are written with a comma between them. -/
theorem encodeLine_cons_cons (f : Fields) (s t : Segment) (rest : List Segment) :
    encodeLine f (s :: t :: rest) =
      (encodeSegment f s ++ ',' :: (encodeLine (f.after s) (t :: rest)).1,
        (encodeLine (f.after s) (t :: rest)).2) := rfl

/-- The fields after a line are those after its last segment. -/
theorem encodeLine_snd (f : Fields) (line : List Segment) :
    (encodeLine f line).2 = line.foldl Fields.after f := by
  induction line generalizing f with
  | nil => rfl
  | cons s rest ih =>
    cases rest with
    | nil => rfl
    | cons t rest => rw [encodeLine_cons_cons, List.foldl_cons, ← ih]

/-- The pieces of a written line are its segments. -/
theorem splitAt_encodeLine (f : Fields) (line : List Segment) :
    (Text.splitAt ',' (encodeLine f line).1).filter (!·.isEmpty) = encodedSegments f line := by
  induction line generalizing f with
  | nil => rfl
  | cons s rest ih =>
    have hcomma := (separator_not_mem_encodeSegment f s).1
    have hkeep : (!(encodeSegment f s).isEmpty) = true := by
      simpa using encodeSegment_ne_nil f s
    cases rest with
    | nil =>
      rw [encodeLine, Text.splitAt_of_not_mem hcomma, List.filter_cons, if_pos hkeep]
      rfl
    | cons t rest =>
      rw [encodeLine_cons_cons, Text.splitAt_append_cons hcomma, List.filter_cons, if_pos hkeep,
        ih]
      rfl

/-- A written line has no semicolon. -/
theorem semicolon_not_mem_encodeLine (f : Fields) (line : List Segment) :
    ';' ∉ (encodeLine f line).1 := by
  induction line generalizing f with
  | nil => simp [encodeLine]
  | cons s rest ih =>
    have hs := (separator_not_mem_encodeSegment f s).2
    cases rest with
    | nil => exact hs
    | cons t rest =>
      rw [encodeLine_cons_cons]
      simp [hs, ih]

/-- Reading the written segments appends them to what was read of the line, as long as all of it
is in order. -/
theorem decodeLine_encodedSegments {f : Fields} (hf : f.Fit) (offset : Nat)
    {line segments : List Segment} (hsorted : Sorted (line ++ segments)) :
    ∃ offset', decodeLine f offset line (encodedSegments f segments) =
      .ok (segments.foldl Fields.after f, offset', line ++ segments) := by
  induction segments generalizing f offset line with
  | nil => exact ⟨offset, by simp [encodedSegments, decodeLine]⟩
  | cons s rest ih =>
    have happend : line ++ s :: rest = (line ++ [s]) ++ rest := by simp
    have hlast : insertSegment s line = line ++ [s] :=
      insertSegment_eq_concat fun t ht =>
        (List.pairwise_append.mp hsorted).2.2 t ht s List.mem_cons_self
    have hvalues : decodeQuantities offset 0 0 (encodeSegment f s) = .ok (f.deltas s) := by
      rw [encodeSegment_eq]
      exact decodeQuantities_flatMap
        (fun d hd => (hf.natAbs_deltas_lt s d hd).trans (by decide)) offset
    rw [happend] at hsorted
    obtain ⟨offset', hrest⟩ :=
      ih (hf.after s) (offset + (encodeSegment f s).length + 1) hsorted
    refine ⟨offset', ?_⟩
    rw [encodedSegments, decodeLine, hvalues]
    simp only [bind, Except.bind, Fields.step_deltas, Option.map_some, Option.getD_some, hlast]
    rw [hrest, List.foldl_cons, happend]

/-- The fields after a line fit. -/
theorem Fields.Fit.foldl_after {f : Fields} (h : f.Fit) (line : List Segment) :
    (line.foldl Fields.after f).Fit :=
  List.foldlRecOn _ _ h fun _ hf s _ => hf.after s

/-- Reading written lines gives them back. A text has at least one line. -/
theorem decodeLines_encodeLines {f : Fields} (hf : f.Fit) (offset : Nat)
    {lines : List (List Segment)} (hne : lines ≠ []) (hsorted : ∀ line ∈ lines, Sorted line) :
    decodeLines f offset (Text.splitAt ';' (encodeLines f lines)) = .ok lines := by
  induction lines generalizing f offset with
  | nil => exact absurd rfl hne
  | cons line rest ih =>
    have hsemicolon := semicolon_not_mem_encodeLine { f with generatedColumn := 0 } line
    obtain ⟨offset', hline⟩ := @decodeLine_encodedSegments _ hf.newLine offset [] line
      (by simpa using hsorted line List.mem_cons_self)
    cases rest with
    | nil =>
      rw [encodeLines, Text.splitAt_of_not_mem hsemicolon, decodeLines, splitAt_encodeLine, hline]
      rfl
    | cons next rest =>
      have hmore := ih (hf.newLine.foldl_after line) (offset' + 1) (List.cons_ne_nil _ _)
        fun l hl => hsorted l (List.mem_cons_of_mem _ hl)
      have hcons : encodeLines f (line :: next :: rest) =
          (encodeLine { f with generatedColumn := 0 } line).1 ++
            ';' :: encodeLines (line.foldl Fields.after { f with generatedColumn := 0 })
              (next :: rest) := by
        rw [← encodeLine_snd]
        rfl
      rw [hcons, Text.splitAt_append_cons hsemicolon, decodeLines, splitAt_encodeLine, hline]
      simp only [bind, Except.bind, List.nil_append, hmore, pure, Except.pure]

/-- Reading the mappings of an ordered map gives its lines back. -/
theorem linesOf_mappings {m : SourceMap} (h : m.Ordered) (hne : m.lines ≠ []) :
    linesOf m.mappings = .ok m.lines := by
  rw [linesOf, mappings, String.toList_ofList]
  exact decodeLines_encodeLines Fields.fit_zero 0 hne h

end SourceMap

end ScriptModules

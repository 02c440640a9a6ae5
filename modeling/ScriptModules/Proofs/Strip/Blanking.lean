import ScriptModules.Proofs.Text.Offsets
import ScriptModules.Transform.TypeStripping

/-!
# What blanking leaves of each character

The sweep over a text keeps a single current range, whatever the ranges are and however they
overlap. A character is blanked exactly when it stands in some range and is no line break.
-/

namespace ScriptModules

namespace Strip

open Grammar (Span)

/-- Whether the character at an offset is blanked. -/
def isBlanked (ranges : List Span) (offset : Nat) (c : Char) : Bool :=
  ranges.any (·.holds offset) && !Text.isBreak c

/-- What stands in place of the character at an offset. -/
def pieceAt (ranges : List Span) (moved : List Moved) (offset : Nat) (c : Char) : List Char :=
  if isBlanked ranges offset c then blankOf moved offset c else [c]

/-- The current range and the ranges to come, for a sweep that has got to an offset: from there on
they cover what all the ranges cover. -/
structure Ahead (ranges : List Span) (offset : Nat) (current : Option Span) (later : List Span) :
    Prop where
  started : ∀ r ∈ current, r.start ≤ offset
  sorted : later.Pairwise (·.start ≤ ·.start)
  covers : ∀ o, offset ≤ o → ((∃ r ∈ ranges, r.holds o = true) ↔
    (∃ r ∈ current, r.holds o = true) ∨ ∃ r ∈ later, r.holds o = true)

/-- A sweep that has settled: no range to come takes the place of the current one. -/
def Settled (offset : Nat) (current : Option Span) (later : List Span) : Prop :=
  (∃ r ∈ current, offset < r.stop) ∨ ∀ r ∈ later, offset < r.start

variable {ranges later : List Span} {moved : List Moved} {offset : Nat} {current : Option Span}

/-- A range holds the offsets from its start up to its stop. -/
theorem holds_iff {r : Span} : r.holds offset = true ↔ r.start ≤ offset ∧ offset < r.stop := by
  simp [Span.holds]

namespace Ahead

/-- Settling moves on to a range that still covers. -/
theorem settle (h : Ahead ranges offset current later) :
    Ahead ranges offset (settle offset current later).1 (settle offset current later).2 ∧
      Settled offset (Strip.settle offset current later).1
        (Strip.settle offset current later).2 := by
  induction later generalizing current with
  | nil => exact ⟨h, Or.inr fun r hr => absurd hr List.not_mem_nil⟩
  | cons next rest ih =>
    have hsorted := List.pairwise_cons.mp h.sorted
    unfold Strip.settle
    split
    · rename_i hmoves
      simp only [Bool.and_eq_true, decide_eq_true_eq, Option.all_eq_true] at hmoves
      obtain ⟨hended, hstarted⟩ := hmoves
      refine ih ⟨?_, hsorted.2, fun o ho => ?_⟩
      · rintro r ⟨⟩
        exact hstarted
      · have hnone : ¬ ∃ r ∈ current, r.holds o = true := by
          rintro ⟨r, hr, hholds⟩
          have := hended r hr
          have := (holds_iff.mp hholds).2
          omega
        rw [h.covers o ho, or_iff_right hnone]
        simp
    · rename_i hstays
      refine ⟨h, ?_⟩
      by_cases hruns : ∃ r ∈ current, offset < r.stop
      · exact Or.inl hruns
      · have hended : ∀ r ∈ current, r.stop ≤ offset := fun r hr =>
          Nat.not_lt.mp fun hlt => hruns ⟨r, hr, hlt⟩
        have hnext : offset < next.start := by
          rw [Bool.and_eq_true, decide_eq_true_eq, not_and, Option.all_eq_true] at hstays
          exact Nat.not_le.mp (hstays (by simpa using hended))
        refine Or.inr fun r hr => ?_
        rcases List.mem_cons.mp hr with rfl | hr
        · exact hnext
        · exact Nat.lt_of_lt_of_le hnext (hsorted.1 r hr)

/-- Once a sweep has settled, the current range tells whether an offset is covered. -/
theorem any_holds (h : Ahead ranges offset current later)
    (hsettled : Settled offset current later) :
    ranges.any (·.holds offset) = current.any (·.holds offset) := by
  rw [Bool.eq_iff_iff, List.any_eq_true, Option.any_eq_true, h.covers offset (Nat.le_refl _)]
  refine or_iff_left_of_imp ?_
  rintro ⟨r, hr, hholds⟩
  rcases hsettled with ⟨r', hr', hstop⟩ | hlater
  · exact ⟨r', hr', holds_iff.mpr ⟨h.started r' hr', hstop⟩⟩
  · have := hlater r hr
    have := (holds_iff.mp hholds).1
    omega

/-- A sweep that goes on stays ahead. -/
theorem move (h : Ahead ranges offset current later) (n : Nat) :
    Ahead ranges (offset + n) current later where
  started r hr := Nat.le_add_right_of_le (h.started r hr)
  sorted := h.sorted
  covers o ho := h.covers o (Nat.le_of_add_right_le ho)

end Ahead

/-- A sweep puts in place of every character what the ranges ask for. -/
theorem sweep_eq (h : Ahead ranges offset current later) (cs : List Char) :
    sweep moved offset current later cs =
      (Text.withOffsets offset cs).flatMap fun (o, c) => pieceAt ranges moved o c := by
  induction cs generalizing offset current later with
  | nil => rfl
  | cons c rest ih =>
    obtain ⟨hahead, hsettled⟩ := h.settle
    rw [sweep, Text.withOffsets, List.flatMap_cons]
    dsimp only
    rw [ih (hahead.move _), pieceAt, isBlanked, Text.isBreak, hahead.any_holds hsettled]
    simp [bne, and_assoc]

/-- What blanking leaves is told for each character by the ranges as a whole. -/
theorem blankRanges_eq (ranges : List Span) (moved : List Moved) (source : List Char) :
    blankRanges ranges moved source =
      (Text.withOffsets 0 source).flatMap fun (o, c) => pieceAt ranges moved o c := by
  have hsorted : (ranges.mergeSort fun a b => a.start ≤ b.start).Pairwise
      fun a b => decide (a.start ≤ b.start) = true :=
    List.pairwise_mergeSort (fun a b c => by simpa using Nat.le_trans)
      (fun a b => by simpa using Nat.le_total a.start b.start) ranges
  exact sweep_eq ⟨by simp, hsorted.imp of_decide_eq_true, by simp⟩ source

/-- The offsets that lie in some of the ranges. -/
def union (ranges : List Span) : Set Nat := {o | ∃ r ∈ ranges, r.start ≤ o ∧ o < r.stop}

/-- An offset is in a union if it is in one of the ranges. -/
theorem mem_union {ranges : List Span} {o : Nat} :
    o ∈ union ranges ↔ ∃ r ∈ ranges, r.start ≤ o ∧ o < r.stop := Iff.rfl

instance (ranges : List Span) (o : Nat) : Decidable (o ∈ union ranges) :=
  inferInstanceAs (Decidable (∃ r ∈ ranges, r.start ≤ o ∧ o < r.stop))

variable {ranges' : List Span} {c : Char}

/-- A character is blanked if it is in the union and breaks no line. -/
theorem isBlanked_iff :
    isBlanked ranges offset c = true ↔ offset ∈ union ranges ∧ c ≠ '\n' ∧ c ≠ '\r' := by
  have hunion : ranges.any (·.holds offset) = true ↔ offset ∈ union ranges := by
    simp only [List.any_eq_true, holds_iff, mem_union]
  rw [isBlanked, Bool.and_eq_true, hunion, Bool.not_eq_true', ← Bool.not_eq_true, Text.isBreak_iff,
    not_or]

/-- Without characters that move, a blanked character leaves spaces. -/
theorem pieceAt_nil (ranges : List Span) (offset : Nat) (c : Char) : pieceAt ranges [] offset c =
    if isBlanked ranges offset c then List.replicate (Text.units c) ' ' else [c] := rfl

/-- A space is left in any case. -/
theorem pieceAt_space (ranges : List Span) (offset : Nat) :
    pieceAt ranges [] offset ' ' = [' '] := by
  rw [pieceAt_nil]
  split <;> rfl

/-- What is left of a character other than a space shows whether it is blanked. -/
theorem pieceAt_append_eq_iff (hc : c ≠ ' ') {a b : List Char} :
    pieceAt ranges [] offset c ++ a = pieceAt ranges' [] offset c ++ b ↔
      isBlanked ranges offset c = isBlanked ranges' offset c ∧ a = b := by
  obtain ⟨n, hn⟩ := Nat.exists_eq_succ_of_ne_zero (Text.units_pos c).ne'
  rw [pieceAt_nil, pieceAt_nil, hn, List.replicate_succ]
  cases isBlanked ranges offset c <;> cases isBlanked ranges' offset c <;> simp [hc, hc.symm]

/-- Ranges leave the same of a text when they blank the same of its characters, whatever becomes of
spaces. -/
theorem blankRanges_eq_blankRanges_iff (source : List Char) :
    blankRanges ranges [] source = blankRanges ranges' [] source ↔
      ∀ o c, (o, c) ∈ Text.withOffsets 0 source → c ≠ ' ' →
        isBlanked ranges o c = isBlanked ranges' o c := by
  rw [blankRanges_eq, blankRanges_eq]
  induction Text.withOffsets 0 source with
  | nil => simp
  | cons first rest ih =>
    obtain ⟨o, c⟩ := first
    simp only [List.flatMap_cons, List.mem_cons, Prod.mk.injEq]
    by_cases hc : c = ' '
    · rw [hc, pieceAt_space, pieceAt_space, List.append_cancel_left_eq, ih]
      grind
    · rw [pieceAt_append_eq_iff hc, ih]
      grind

/-- Blanking replaces each character at an offset in the union of the ranges by spaces, unless it
ends a line, and copies all others. So ranges with one union leave the same of every text. -/
theorem blankRanges_blanks_union (ranges : List Span) (source : List Char) :
    (blankRanges ranges [] source = (Text.withOffsets 0 source).flatMap fun (o, c) =>
      if o ∈ union ranges ∧ c ≠ '\n' ∧ c ≠ '\r' then List.replicate (Text.units c) ' ' else [c]) ∧
    ∀ ranges', union ranges = union ranges' →
      blankRanges ranges [] source = blankRanges ranges' [] source := by
  refine ⟨?_, fun ranges' h => (blankRanges_eq_blankRanges_iff source).mpr fun o c _ _ => ?_⟩
  · rw [blankRanges_eq]
    refine List.flatMap_congr fun (o, c) _ => ?_
    exact (pieceAt_nil ranges o c).trans (by simp only [isBlanked_iff])
  · rw [Bool.eq_iff_iff, isBlanked_iff, isBlanked_iff, h]

/-- Ranges that overlap, lie in one another, come twice, are empty or end before they start. -/
def entangled : List Span := [⟨4, 8⟩, ⟨1, 3⟩, ⟨2, 5⟩, ⟨6, 6⟩, ⟨7, 2⟩, ⟨1, 3⟩]

/-- Entangled ranges blank what one range over all of them blanks. -/
theorem blankRanges_blanks_union_entangled :
    union entangled = union [⟨1, 8⟩] ∧
      blankRanges entangled [] "abcdef\ngh".toList = blankRanges [⟨1, 8⟩] [] "abcdef\ngh".toList ∧
      blankRanges entangled [] "abcdef\ngh".toList = "a     \n h".toList := by
  have hunion : union entangled = union [⟨1, 8⟩] := by
    ext o
    simp only [mem_union, entangled, List.exists_mem_cons_iff, List.not_mem_nil,
      false_and, exists_false, or_false]
    omega
  obtain ⟨hblanked, hcongr⟩ := blankRanges_blanks_union entangled "abcdef\ngh".toList
  exact ⟨hunion, hcongr _ hunion, hblanked.trans (by decide)⟩

end Strip

/-- Stripping tells for each character of a source what stands in its place. -/
theorem stripTypes_eq (source : String) (path : Path) (options : TransformOptions) :
    stripTypes source path options =
      match Grammar.parse? (.ofPath path) source with
      | none =>
        let blame := Grammar.blame (.ofPath path) source
        .error (.rejected path (Text.positionAt blame.offset source.toList) blame.message)
      | some tree =>
        match Strip.survey source.toList none none tree with
        | .error u =>
          .error (.unsupported path (Text.positionAt u.offset source.toList) u.construct.text)
        | .ok f =>
          let pieces := (Text.withOffsets 0 source.toList).flatMap fun (o, c) =>
            Strip.pieceAt (f.ranges options.preservesImports) f.moved o c
          .ok ⟨String.ofList pieces, .identity path.text source⟩ := by
  unfold stripTypes
  dsimp only
  cases Grammar.parse? (.ofPath path) source with
  | none => rfl
  | some tree =>
    unfold Strip.stripTree
    dsimp only
    cases Strip.survey source.toList none none tree with
    | error u => rfl
    | ok f => simp only [Except.map, Strip.blankRanges_eq]

/-- A source that is stripped has a tree, and what is blanked is what a survey of the tree found. -/
theorem exists_survey_of_stripTypes {source : String} {path : Path} {options : TransformOptions}
    {out : Transformed} (h : stripTypes source path options = .ok out) :
    ∃ tree f, Grammar.parse? (.ofPath path) source = some tree ∧
      Strip.survey source.toList none none tree = .ok f ∧
        out.code.toList =
          Strip.blankRanges (f.ranges options.preservesImports) f.moved source.toList := by
  rw [stripTypes_eq] at h
  split at h
  · cases h
  · rename_i tree hparse
    split at h
    · cases h
    · rename_i f hsurvey
      obtain rfl := Except.ok.inj h
      refine ⟨tree, f, hparse, hsurvey, ?_⟩
      rw [Strip.blankRanges_eq]
      exact String.toList_ofList

end ScriptModules

import ScriptModules.Grammar.Rule
import ScriptModules.Proofs.Grammar.Lexemes

/-!
# Trees in their places

Reading never invents text: a cursor stays a place of the text, every token is a slice of it, and
the trees that were read stand one after the other.
-/

namespace ScriptModules.Grammar

open Text (bytesOf isBreak)

/-- A cursor that has got to a place of a text. -/
def Cursor.IsPlace (src : List Char) (c : Cursor) : Prop :=
  ∃ front, src = front ++ c.rest ∧ c.offset = bytesOf front

/-- The piece of a text that a span covers. -/
def Slice (src : List Char) (span : Span) (piece : List Char) : Prop :=
  ∃ front back, src = front ++ piece ++ back ∧
    span.start = bytesOf front ∧ span.stop = bytesOf (front ++ piece)

variable {src : List Char} {c after : Cursor}

namespace Cursor

/-- What remains after going on is the rest without what was passed. -/
theorem rest_advance (n : Nat) (c : Cursor) : (c.advance n).rest = c.rest.drop n := by
  induction n generalizing c with
  | zero => rfl
  | succ n ih =>
    obtain ⟨rest, offset, size, hsize⟩ := c
    cases rest with
    | nil => rfl
    | cons d rest => exact ih _

/-- The offset grows by the bytes that are passed. -/
theorem offset_advance (n : Nat) (c : Cursor) :
    (c.advance n).offset = c.offset + bytesOf (c.rest.take n) := by
  induction n generalizing c with
  | zero => rfl
  | succ n ih =>
    obtain ⟨rest, offset, size, hsize⟩ := c
    cases rest with
    | nil => rfl
    | cons d rest =>
      rw [advance, ih]
      simp [Nat.add_assoc]

/-- A cursor starts at a place of its text. -/
theorem isPlace_ofText (src : List Char) : (ofText src).IsPlace src := ⟨[], rfl, rfl⟩

/-- Going on leads to another place of the text. -/
theorem IsPlace.advance (h : c.IsPlace src) (n : Nat) : (c.advance n).IsPlace src := by
  obtain ⟨front, hsrc, hoffset⟩ := h
  refine ⟨front ++ c.rest.take n, ?_, ?_⟩
  · rw [rest_advance, List.append_assoc, List.take_append_drop, hsrc]
  · rw [offset_advance, hoffset, Text.bytesOf_append]

/-- What is passed is the piece of the text between the two offsets. -/
theorem IsPlace.slice (h : c.IsPlace src) (n : Nat) :
    Slice src ⟨c.offset, (c.advance n).offset⟩ (c.rest.take n) := by
  obtain ⟨front, hsrc, hoffset⟩ := h
  refine ⟨front, c.rest.drop n, ?_, hoffset, ?_⟩
  · rw [List.append_assoc, List.take_append_drop, hsrc]
  · rw [offset_advance, hoffset, Text.bytesOf_append]

/-- Going on never leads back. -/
theorem offset_le_advance (n : Nat) (c : Cursor) : c.offset ≤ (c.advance n).offset := by
  rw [offset_advance]
  exact Nat.le_add_right _ _

end Cursor

/-- Trees in a row stop where the last one stops. -/
theorem Forest.stop_span_concat (offset : Nat) (front : Forest) (t : Tree) :
    (Forest.span offset (front ++ [t])).stop = t.span.stop := by
  cases front with
  | nil => rfl
  | cons u front =>
    rw [List.cons_append, span, ← List.cons_append, List.getLast?_concat]
    rfl

/-- Trees that stand in order between two offsets. -/
def Ordered (low high : Nat) : Forest → Prop
  | [] => low ≤ high
  | t :: ts => low ≤ t.span.start ∧ t.span.start ≤ t.span.stop ∧ Ordered t.span.stop high ts

namespace Ordered

variable {low mid high : Nat} {t : Tree} {ts us : Forest}

/-- Trees in order have room between their offsets. -/
theorem le (h : Ordered low high ts) : low ≤ high := by
  induction ts generalizing low with
  | nil => exact h
  | cons t ts ih => exact Nat.le_trans h.1 (Nat.le_trans h.2.1 (ih h.2.2))

/-- Trees in order between two offsets are so between any that lie further apart. -/
theorem mono {low' high' : Nat} (h : Ordered low high ts) (hlow : low' ≤ low)
    (hhigh : high ≤ high') : Ordered low' high' ts := by
  induction ts generalizing low low' with
  | nil => exact Nat.le_trans hlow (Nat.le_trans h hhigh)
  | cons t ts ih => exact ⟨Nat.le_trans hlow h.1, h.2.1, ih h.2.2 (Nat.le_refl _)⟩

/-- Two rows of trees are in order one after the other if the second starts where the first may
stop. -/
theorem append (h : Ordered low mid ts) (h' : Ordered mid high us) :
    Ordered low high (ts ++ us) := by
  induction ts generalizing low with
  | nil => exact h'.mono h (Nat.le_refl _)
  | cons t ts ih => exact ⟨h.1, h.2.1, ih h.2.2⟩

/-- The front and the back of a row of trees meet at some offset. -/
theorem of_append (h : Ordered low high (ts ++ us)) :
    ∃ mid, Ordered low mid ts ∧ Ordered mid high us := by
  induction ts generalizing low with
  | nil => exact ⟨low, Nat.le_refl _, h⟩
  | cons t ts ih =>
    obtain ⟨mid, hfront, hback⟩ := ih h.2.2
    exact ⟨mid, ⟨h.1, h.2.1, hfront⟩, hback⟩

/-- Leaving trees out keeps the others in order. -/
theorem filter (h : Ordered low high ts) (p : Tree → Bool) : Ordered low high (ts.filter p) := by
  induction ts generalizing low with
  | nil => exact h
  | cons t ts ih =>
    rw [List.filter_cons]
    split
    · exact ⟨h.1, h.2.1, ih h.2.2⟩
    · exact ih (h.2.2.mono (Nat.le_trans h.1 h.2.1) (Nat.le_refl _))

/-- Each of the trees stands between the offsets. -/
theorem of_mem (h : Ordered low high ts) (ht : t ∈ ts) :
    low ≤ t.span.start ∧ t.span.start ≤ t.span.stop ∧ t.span.stop ≤ high := by
  obtain ⟨front, back, rfl⟩ := List.append_of_mem ht
  obtain ⟨mid, hfront, hback⟩ := h.of_append
  exact ⟨Nat.le_trans hfront.le hback.1, hback.2.1, hback.2.2.le⟩

/-- Of two of the trees, the first one stops before the other starts. -/
theorem le_of_append {front back : Forest} (h : Ordered low high (front ++ t :: back))
    {u : Tree} (hu : u ∈ back) : t.span.stop ≤ u.span.start := by
  obtain ⟨mid, -, hback⟩ := h.of_append
  exact (hback.2.2.of_mem hu).1

/-- One of two trees stops before the other starts. -/
theorem apart (h : Ordered low high ts) {u : Tree} (ht : t ∈ ts) (hu : u ∈ ts) (hne : t ≠ u) :
    t.span.stop ≤ u.span.start ∨ u.span.stop ≤ t.span.start := by
  obtain ⟨front, back, rfl⟩ := List.append_of_mem ht
  rcases List.mem_append.mp hu with hu | hu
  · obtain ⟨before, between, rfl⟩ := List.append_of_mem hu
    rw [List.append_assoc, List.cons_append] at h
    exact Or.inr (h.le_of_append (by simp))
  · rcases List.mem_cons.mp hu with rfl | hu
    · exact absurd rfl hne
    · exact Or.inl (h.le_of_append hu)

/-- No offset is held by two of the trees. -/
theorem eq_of_holds (h : Ordered low high ts) {u : Tree} (ht : t ∈ ts) (hu : u ∈ ts) {offset : Nat}
    (htholds : t.span.holds offset = true) (huholds : u.span.holds offset = true) : t = u := by
  by_contra hne
  simp only [Span.holds, Bool.and_eq_true, decide_eq_true_eq] at htholds huholds
  rcases h.apart ht hu hne with hle | hle <;> omega

/-- Trees stand between where the first one starts and the last one stops. -/
theorem span (h : Ordered low high ts) (hne : ts ≠ []) (offset : Nat) :
    Ordered (Forest.span offset ts).start (Forest.span offset ts).stop ts ∧
      low ≤ (Forest.span offset ts).start ∧ (Forest.span offset ts).stop ≤ high := by
  obtain ⟨t, ts, rfl⟩ := List.exists_cons_of_ne_nil hne
  obtain ⟨front, last, hlast⟩ : ∃ front last, t :: ts = front ++ [last] :=
    ⟨_, _, (List.dropLast_concat_getLast hne).symm⟩
  have hstop : (Forest.span offset (t :: ts)).stop = last.span.stop := by
    rw [hlast, Forest.stop_span_concat]
  rw [hstop, show (Forest.span offset (t :: ts)).start = t.span.start from rfl]
  refine ⟨?_, h.1, ?_⟩
  · have hfirst : Ordered t.span.start high (t :: ts) := ⟨Nat.le_refl _, h.2⟩
    rw [hlast] at hfirst ⊢
    obtain ⟨mid, hfront, hback⟩ := hfirst.of_append
    exact hfront.append ⟨hback.1, hback.2.1, Nat.le_refl _⟩
  · exact (h.of_mem (hlast ▸ List.mem_append_right front (List.mem_singleton_self last))).2.2

end Ordered

end ScriptModules.Grammar

import Mathlib.Data.List.Basic
import Mathlib.Data.List.DropRight
import ScriptModules.Text.Position

/-!
# Offsets and code units

Where the characters of a text start, counted in bytes of UTF-8, and the UTF-16 code units that
they stand for.
-/

namespace ScriptModules.Text

@[simp] theorem bytesOf_nil : bytesOf [] = 0 := rfl

@[simp] theorem bytesOf_cons (c : Char) (cs : List Char) :
    bytesOf (c :: cs) = c.utf8Size + bytesOf cs := rfl

@[simp] theorem bytesOf_append (a b : List Char) : bytesOf (a ++ b) = bytesOf a + bytesOf b := by
  induction a with
  | nil => simp
  | cons c rest ih => simp [ih, Nat.add_assoc]

/-- The characters of two texts stand one after the other, at the offsets behind the first. -/
theorem withOffsets_append (offset : Nat) (a b : List Char) :
    withOffsets offset (a ++ b) = withOffsets offset a ++ withOffsets (offset + bytesOf a) b := by
  induction a generalizing offset with
  | nil => rfl
  | cons c rest ih => simp [withOffsets, ih, Nat.add_assoc]

/-- A character stands at an offset when that is the number of bytes before it. -/
theorem mem_withOffsets {offset o : Nat} {c : Char} {cs : List Char} :
    (o, c) ∈ withOffsets offset cs ↔
      ∃ front back, cs = front ++ c :: back ∧ o = offset + bytesOf front := by
  induction cs generalizing offset with
  | nil => simp [withOffsets]
  | cons d rest ih =>
    rw [withOffsets, List.mem_cons, ih]
    constructor
    · rintro (heq | ⟨front, back, rfl, rfl⟩)
      · obtain ⟨rfl, rfl⟩ := Prod.mk.inj heq
        exact ⟨[], rest, rfl, rfl⟩
      · exact ⟨d :: front, back, rfl, by simp [Nat.add_assoc]⟩
    · rintro ⟨front, back, heq, rfl⟩
      cases front with
      | nil =>
        obtain ⟨rfl, rfl⟩ := List.cons.inj heq
        exact Or.inl rfl
      | cons e front =>
        obtain ⟨rfl, rfl⟩ := List.cons.inj heq
        exact Or.inr ⟨front, back, rfl, by simp [Nat.add_assoc]⟩

/-- An offset between the characters of a text. -/
def IsOffset (cs : List Char) (offset : Nat) : Prop :=
  ∃ front back, cs = front ++ back ∧ offset = bytesOf front

/-- The start is between characters. -/
theorem isOffset_zero (cs : List Char) : IsOffset cs 0 := ⟨[], cs, rfl, rfl⟩

/-- What stands before the offset at which some of a text ends. -/
theorem before_bytesOf (front back : List Char) :
    before (bytesOf front) (front ++ back) = front := by
  induction front with
  | nil => cases back <;> rfl
  | cons c front ih =>
    have hsize := c.utf8Size_pos
    rw [List.cons_append, before, bytesOf_cons, if_neg (by omega), Nat.add_sub_cancel_left, ih]

/-- A text is what stands before an offset and what stands from there on. -/
theorem before_append_fromOffset (offset : Nat) (cs : List Char) :
    before offset cs ++ fromOffset offset cs = cs := by
  induction cs generalizing offset with
  | nil => rfl
  | cons c rest ih =>
    rw [before, fromOffset]
    split
    · rfl
    · rw [List.cons_append, ih]

/-- A line is counted by the line feeds before it, a column by the characters after the last of
them. -/
theorem positionAt_eq (offset : Nat) (cs : List Char) :
    positionAt offset cs = ⟨(before offset cs).count '\n' + 1,
      ((before offset cs).rtakeWhile (· != '\n')).length + 1⟩ := by
  rw [positionAt]
  generalize before offset cs = lead
  induction lead using List.reverseRecOn with
  | nil => rfl
  | append_singleton lead c ih =>
    rw [List.foldl_append, List.foldl_cons, List.foldl_nil, ih, Position.next, List.count_append]
    by_cases hc : c = '\n'
    · rw [hc, if_pos (by decide), List.rtakeWhile_concat_neg _ _ _ (by decide)]
      rfl
    · rw [if_neg (by simpa using hc), List.rtakeWhile_concat_pos _ _ _ (by simpa using hc)]
      simp [hc]

/-- A character that ends a line or is part of the end of one. -/
def isBreak (c : Char) : Bool := c == '\n' || c == '\r'

/-- Line feeds and carriage returns break lines. -/
theorem isBreak_iff {c : Char} : isBreak c = true ↔ c = '\n' ∨ c = '\r' := by
  simp [isBreak]

@[simp] theorem unitsOf_nil : unitsOf [] = 0 := rfl

@[simp] theorem unitsOf_cons (c : Char) (cs : List Char) :
    unitsOf (c :: cs) = units c + unitsOf cs := rfl

@[simp] theorem unitsOf_append (a b : List Char) : unitsOf (a ++ b) = unitsOf a + unitsOf b := by
  induction a with
  | nil => exact (Nat.zero_add _).symm
  | cons c rest ih => rw [List.cons_append, unitsOf_cons, unitsOf_cons, ih, Nat.add_assoc]

/-- A character has some code unit. -/
theorem units_pos (c : Char) : 0 < units c := by
  unfold units
  split <;> decide

/-- Two characters with the same number of code units before them have the same text before them. -/
theorem front_eq_of_unitsOf_eq {a b back back' : List Char} {c c' : Char}
    (h : a ++ c :: back = b ++ c' :: back') (hunits : unitsOf a = unitsOf b) : a = b := by
  induction a generalizing b with
  | nil =>
    cases b with
    | nil => rfl
    | cons d b =>
      have hpos := units_pos d
      have hzero : 0 = units d + unitsOf b := hunits
      omega
  | cons d a ih =>
    cases b with
    | nil =>
      have hpos := units_pos d
      have hzero : units d + unitsOf a = 0 := hunits
      omega
    | cons e b =>
      rw [List.cons_append, List.cons_append] at h
      obtain ⟨rfl, hrest⟩ := List.cons.inj h
      rw [ih hrest (by simpa using hunits)]

/-- The UTF-16 code units of a character. -/
def codeUnits (c : Char) : List Nat :=
  let n := c.val.toNat
  if n < 0x10000 then [n] else [0xD800 + (n - 0x10000) / 0x400, 0xDC00 + (n - 0x10000) % 0x400]

/-- The UTF-16 code units of a text. -/
def codeUnitsOf (cs : List Char) : List Nat := cs.flatMap codeUnits

/-- The code units of a character are as many as are counted. -/
theorem length_codeUnits (c : Char) : (codeUnits c).length = units c := by
  unfold codeUnits units
  dsimp only
  split <;> rfl

@[simp] theorem codeUnitsOf_nil : codeUnitsOf [] = [] := rfl

@[simp] theorem codeUnitsOf_cons (c : Char) (cs : List Char) :
    codeUnitsOf (c :: cs) = codeUnits c ++ codeUnitsOf cs := rfl

@[simp] theorem codeUnitsOf_append (a b : List Char) :
    codeUnitsOf (a ++ b) = codeUnitsOf a ++ codeUnitsOf b := List.flatMap_append

/-- The code units of a text are as many as are counted. -/
theorem length_codeUnitsOf (cs : List Char) : (codeUnitsOf cs).length = unitsOf cs := by
  induction cs with
  | nil => rfl
  | cons c cs ih => rw [codeUnitsOf_cons, List.length_append, length_codeUnits, ih, unitsOf_cons]

/-- A code unit of a text is one of a character of it. -/
theorem exists_char_of_lt {cs : List Char} {i : Nat} (h : i < unitsOf cs) :
    ∃ front c back j, cs = front ++ c :: back ∧ i = unitsOf front + j ∧ j < units c := by
  induction cs generalizing i with
  | nil => cases h
  | cons c cs ih =>
    by_cases hi : i < units c
    · exact ⟨[], c, cs, i, rfl, (Nat.zero_add i).symm, hi⟩
    · obtain ⟨front, d, back, j, rfl, hj, hlt⟩ :=
        ih (i := i - units c) (by rw [unitsOf_cons] at h; omega)
      exact ⟨c :: front, d, back, j, rfl, by rw [unitsOf_cons]; omega, hlt⟩

/-- The code units of a character stand behind those of the front. -/
theorem getElem?_codeUnitsOf (front back : List Char) {c : Char} {j : Nat} (hj : j < units c) :
    (codeUnitsOf (front ++ c :: back))[unitsOf front + j]? = (codeUnits c)[j]? := by
  rw [codeUnitsOf_append, codeUnitsOf_cons, List.getElem?_append_right (by
    rw [length_codeUnitsOf]
    exact Nat.le_add_right _ _), length_codeUnitsOf, Nat.add_sub_cancel_left,
    List.getElem?_append_left (by rw [length_codeUnits]; exact hj)]

/-- A code unit below the surrogates is that of its character alone. -/
theorem codeUnits_eq_of_mem {c : Char} {u : Nat} (h : u ∈ codeUnits c) (hu : u < 0xD800) :
    codeUnits c = [u] ∧ c.val.toNat = u := by
  by_cases hsmall : c.val.toNat < 0x10000
  · have hunits : codeUnits c = [c.val.toNat] := if_pos hsmall
    rw [hunits, List.mem_singleton] at h
    exact ⟨by rw [hunits, h], h.symm⟩
  · rw [codeUnits, if_neg hsmall] at h
    simp only [List.mem_cons, List.not_mem_nil, or_false] at h
    omega

/-- The code units of line breaks are those of line breaks alone. -/
theorem isBreak_of_codeUnit {c : Char} {u : Nat} (h : u ∈ codeUnits c) (hu : u ∈ [10, 13]) :
    isBreak c = true := by
  have hvalue : u = 10 ∨ u = 13 := by simpa using hu
  obtain ⟨-, hc⟩ := codeUnits_eq_of_mem h (by omega)
  rw [isBreak_iff]
  rcases hvalue with rfl | rfl
  · exact Or.inl (Char.ext (UInt32.toNat_inj.mp hc))
  · exact Or.inr (Char.ext (UInt32.toNat_inj.mp hc))

end ScriptModules.Text

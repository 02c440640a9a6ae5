import ScriptModules.Proofs.Text.Joints

/-!
# Lines of characters

The line of an offset is told by the line feeds at lower offsets. So characters that are taken from
a text in order stay on their lines when every line feed is taken, whatever else is left out.
-/

namespace ScriptModules.Text

variable {cs front back : List Char} {left os a b : List (Nat × Char)} {o : Nat × Char} {m n : Nat}

/-- A text with characters has bytes. -/
theorem bytesOf_pos (h : cs ≠ []) : 0 < bytesOf cs := by
  obtain ⟨c, rest, rfl⟩ := List.exists_cons_of_ne_nil h
  exact Nat.add_pos_left c.utf8Size_pos _

/-- Every byte of a text belongs to a character. -/
theorem exists_mem_withOffsets_of_le (hn : 0 < n) (hle : n ≤ bytesOf cs) :
    ∃ o ∈ withOffsets 0 cs, o.1 < n ∧ n ≤ o.1 + o.2.utf8Size := by
  suffices h : ∃ front c back, cs = front ++ c :: back ∧ bytesOf front < n ∧
      n ≤ bytesOf front + c.utf8Size by
    obtain ⟨front, c, back, hcs, h⟩ := h
    exact ⟨(bytesOf front, c), mem_withOffsets.mpr ⟨front, back, hcs, (Nat.zero_add _).symm⟩, h⟩
  induction cs generalizing n with
  | nil => exact absurd hn (Nat.not_lt.mpr hle)
  | cons c cs ih =>
    by_cases hc : n ≤ c.utf8Size
    · exact ⟨[], c, cs, rfl, hn, by simpa using hc⟩
    · rw [bytesOf_cons] at hle
      obtain ⟨front, d, back, rfl, hlt, hle⟩ := ih (n := n - c.utf8Size) (by omega) (by omega)
      refine ⟨c :: front, d, back, rfl, ?_, ?_⟩ <;> rw [bytesOf_cons] <;> omega

/-- Behind any byte of a character lies the character with all that stands before it. -/
theorem before_char {c : Char} (hn : 0 < n) (hle : n ≤ c.utf8Size) (front back : List Char) :
    before (bytesOf front + n) (front ++ c :: back) = front ++ [c] := by
  have hzero : n - c.utf8Size = 0 := by omega
  rw [before_append, before, if_neg (by omega), hzero]
  cases back <;> rfl

/-- Before all offsets in a character and behind it stands the same, up to the character. -/
theorem before_eq_of_mem_withOffsets (ho : o ∈ withOffsets 0 cs) (hn : o.1 < n)
    (hle : n ≤ o.1 + o.2.utf8Size) : before n cs = before (o.1 + 1) cs := by
  obtain ⟨offset, c⟩ := o
  obtain ⟨front, back, rfl, hoffset⟩ := mem_withOffsets.mp ho
  rw [Nat.zero_add] at hoffset
  subst hoffset
  obtain ⟨k, rfl⟩ := Nat.exists_eq_add_of_lt hn
  rw [Nat.add_assoc] at hle ⊢
  rw [before_char (Nat.succ_pos k) (Nat.le_of_add_le_add_left hle),
    before_char Nat.one_pos c.utf8Size_pos]

/-- A character with its offset that is a line feed. -/
def isFeed (o : Nat × Char) : Bool := o.2 == '\n'

/-- Line feeds are counted the same with their offsets. -/
theorem count_map_snd (os : List (Nat × Char)) :
    (os.map Prod.snd).count '\n' = os.countP isFeed := by
  rw [List.count, List.countP_map]
  rfl

/-- Without the offsets the characters are those of the text. -/
theorem map_snd_withOffsets (offset : Nat) (cs : List Char) :
    (withOffsets offset cs).map Prod.snd = cs := by
  induction cs generalizing offset with
  | nil => rfl
  | cons c cs ih => rw [withOffsets, List.map_cons, ih]

/-- No character stands before the first offset. -/
theorem le_of_mem_withOffsets {offset : Nat} (ho : o ∈ withOffsets offset cs) : offset ≤ o.1 := by
  obtain ⟨front, -, -, hoffset⟩ := mem_withOffsets.mp ho
  exact hoffset ▸ Nat.le_add_right _ _

/-- The characters of a text stand in order, and before its end. -/
theorem sorted_withOffsets (offset : Nat) (cs : List Char) :
    ((withOffsets offset cs).map Prod.fst ++ [offset + bytesOf cs]).Pairwise (· < ·) := by
  induction cs generalizing offset with
  | nil => exact List.pairwise_singleton _ _
  | cons c cs ih =>
    have hsize := c.utf8Size_pos
    rw [withOffsets, List.map_cons, List.cons_append, bytesOf_cons, ← Nat.add_assoc]
    refine List.pairwise_cons.mpr ⟨fun n hn => ?_, ih (offset + c.utf8Size)⟩
    rcases List.mem_append.mp hn with hn | hn
    · obtain ⟨o, ho, rfl⟩ := List.mem_map.mp hn
      have hle := le_of_mem_withOffsets ho
      omega
    · obtain rfl := List.mem_singleton.mp hn
      omega

/-- The line feeds before an offset are those at lower offsets. -/
theorem count_before (start m : Nat) (cs : List Char) :
    (before (m - start) cs).count '\n' =
      (withOffsets start cs).countP fun o => decide (o.1 < m) && isFeed o := by
  induction cs generalizing start with
  | nil => rfl
  | cons c cs ih =>
    have hbehind := ih (start + c.utf8Size)
    rw [withOffsets, List.countP_cons, ← hbehind, before]
    by_cases hstart : start < m
    · rw [if_neg (by omega), List.count_cons, ← Nat.sub_sub]
      simp [isFeed, hstart]
    · have hzero : m - (start + c.utf8Size) = 0 := by omega
      rw [if_pos (by omega), hzero]
      cases cs <;> simp [before, hstart]

/-- A character of one text and a character of another, each with its offset, are the same, and
the lines that they stand on and those behind them are. -/
structure SameLine (left cs : List Char) (i o : Nat × Char) : Prop where
  char : i.2 = o.2
  line : (positionAt i.1 left).line = (positionAt o.1 cs).line
  behind : (positionAt (i.1 + 1) left).line = (positionAt (o.1 + 1) cs).line

/-- Of characters in order of their offsets, those below an offset hold the line feeds below it. -/
theorem count_of_split (hfeeds : (a ++ b).filter isFeed = (withOffsets 0 cs).filter isFeed)
    (ha : ∀ o ∈ a, o.1 < m) (hb : ∀ o ∈ b, m ≤ o.1) :
    (a.map Prod.snd).count '\n' = (before m cs).count '\n' := by
  have hbelow : ∀ o ∈ a, isFeed o = true ↔ (decide (o.1 < m) && isFeed o) = true := by
    intro o ho
    simp [ha o ho]
  have habove : ∀ o ∈ b, ¬ (decide (o.1 < m) && isFeed o) = true := by
    intro o ho
    simp [Nat.not_lt.mpr (hb o ho)]
  calc (a.map Prod.snd).count '\n'
      = a.countP isFeed := count_map_snd a
    _ = a.countP (fun o => decide (o.1 < m) && isFeed o) := List.countP_congr hbelow
    _ = (a ++ b).countP (fun o => decide (o.1 < m) && isFeed o) := by
      rw [List.countP_append, List.countP_eq_zero.mpr habove, Nat.add_zero]
    _ = (withOffsets 0 cs).countP (fun o => decide (o.1 < m) && isFeed o) := by
      rw [← List.countP_filter, hfeeds, List.countP_filter]
    _ = (before m cs).count '\n' := (count_before 0 m cs).symm

/-- Characters in order of their offsets stay on their lines when every line feed is there. -/
theorem sameLines (hfeeds : left.filter isFeed = (withOffsets 0 cs).filter isFeed)
    (hsorted : left.Pairwise fun o o' => o.1 < o'.1) :
    List.Forall₂ (SameLine (left.map Prod.snd) cs) (withOffsets 0 (left.map Prod.snd)) left := by
  -- On the characters behind those that were passed, which tell the offset of the next.
  suffices h : ∀ a b, left = a ++ b → List.Forall₂ (SameLine (left.map Prod.snd) cs)
      (withOffsets (bytesOf (a.map Prod.snd)) (b.map Prod.snd)) b from h [] left rfl
  intro a b hleft
  induction b generalizing a with
  | nil => exact .nil
  | cons o b ih =>
    have hbehind : left = (a ++ [o]) ++ b := by rw [hleft, List.append_cons]
    rw [hleft, List.pairwise_append, List.pairwise_cons] at hsorted
    obtain ⟨-, ⟨hb, -⟩, ha⟩ := hsorted
    have hchars : left.map Prod.snd = a.map Prod.snd ++ o.2 :: b.map Prod.snd := by
      rw [hleft, List.map_append, List.map_cons]
    have hline : (a.map Prod.snd).count '\n' = (before o.1 cs).count '\n' := by
      refine count_of_split (hleft ▸ hfeeds) (fun x hx => ha x hx o List.mem_cons_self) ?_
      exact List.forall_mem_cons.mpr ⟨Nat.le_refl _, fun x hx => Nat.le_of_lt (hb x hx)⟩
    have hnext : ((a ++ [o]).map Prod.snd).count '\n' = (before (o.1 + 1) cs).count '\n' := by
      refine count_of_split (hbehind ▸ hfeeds) (fun x hx => ?_) hb
      rcases List.mem_append.mp hx with hx | hx
      · exact Nat.lt_succ_of_lt (ha x hx o List.mem_cons_self)
      · rw [List.mem_singleton.mp hx]
        exact Nat.lt_succ_self _
    have hfirst : SameLine (left.map Prod.snd) cs (bytesOf (a.map Prod.snd), o.2) o := by
      refine ⟨rfl, ?_, ?_⟩
      · rw [positionAt_eq, positionAt_eq, hchars, before_bytesOf, hline]
      · rw [positionAt_eq, positionAt_eq, hchars, before_char Nat.one_pos o.2.utf8Size_pos, ← hnext,
          List.map_append]
        rfl
    refine .cons hfirst ?_
    have hrest := ih (a ++ [o]) hbehind
    rw [List.map_append, bytesOf_append] at hrest
    exact hrest

end ScriptModules.Text

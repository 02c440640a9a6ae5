import ScriptModules.Text.Split

/-!
# Pieces of a text

Pieces hold no mark, and a text is its pieces with marks between them.
-/

namespace ScriptModules.Text

variable {mark : Char}

/-- What is behind the front of a list with a condition is the rest of it. -/
theorem drop_length_takeWhile {α : Type} (p : α → Bool) (l : List α) :
    l.drop (l.takeWhile p).length = l.dropWhile p :=
  calc l.drop (l.takeWhile p).length
      = (l.takeWhile p ++ l.dropWhile p).drop (l.takeWhile p).length := by
        rw [List.takeWhile_append_dropWhile]
    _ = l.dropWhile p := List.drop_left

/-- Even an empty text has a piece. -/
theorem splitAt_ne_nil (mark : Char) (cs : List Char) : splitAt mark cs ≠ [] := by
  cases cs with
  | nil => simp [splitAt]
  | cons c rest =>
    rw [splitAt]
    split
    · simp
    · split <;> simp

/-- A character that is no mark goes to the first piece. -/
theorem splitAt_cons_of_ne {c : Char} (h : c ≠ mark) (cs : List Char) :
    ∃ first rest,
      splitAt mark cs = first :: rest ∧ splitAt mark (c :: cs) = (c :: first) :: rest := by
  cases hs : splitAt mark cs with
  | nil => exact absurd hs (splitAt_ne_nil mark cs)
  | cons first rest => exact ⟨first, rest, rfl, by rw [splitAt, if_neg (by simpa using h), hs]⟩

/-- A mark at the front has an empty piece before it. -/
theorem splitAt_cons_mark (mark : Char) (cs : List Char) :
    splitAt mark (mark :: cs) = [] :: splitAt mark cs := by
  simp [splitAt]

/-- The pieces of two texts with a mark between them are those of each. -/
theorem splitAt_append_mark (cs rest : List Char) :
    splitAt mark (cs ++ mark :: rest) = splitAt mark cs ++ splitAt mark rest := by
  induction cs with
  | nil => exact splitAt_cons_mark mark rest
  | cons c cs ih =>
    by_cases hc : c = mark
    · subst hc
      rw [List.cons_append, splitAt_cons_mark, splitAt_cons_mark, ih, List.cons_append]
    · obtain ⟨first, more, hcs, hcons⟩ := splitAt_cons_of_ne hc cs
      obtain ⟨first', more', hcs', hcons'⟩ := splitAt_cons_of_ne hc (cs ++ mark :: rest)
      rw [List.cons_append, hcons, hcons']
      rw [hcs, hcs'] at ih
      obtain ⟨rfl, rfl⟩ := List.cons.inj ih
      rfl

/-- A text without a mark is one piece. -/
theorem splitAt_of_not_mem {cs : List Char} (h : mark ∉ cs) : splitAt mark cs = [cs] := by
  induction cs with
  | nil => rfl
  | cons c rest ih =>
    obtain ⟨hc, hrest⟩ : mark ≠ c ∧ mark ∉ rest := by simpa using h
    rw [splitAt, if_neg (by simpa using Ne.symm hc), ih hrest]

/-- The first mark ends the first piece. -/
theorem splitAt_append_cons {cs : List Char} (h : mark ∉ cs) (rest : List Char) :
    splitAt mark (cs ++ mark :: rest) = cs :: splitAt mark rest := by
  rw [splitAt_append_mark, splitAt_of_not_mem h, List.singleton_append]

/-- A piece holds no mark. -/
theorem not_mem_of_mem_splitAt {cs piece : List Char} (h : piece ∈ splitAt mark cs) :
    mark ∉ piece := by
  induction cs generalizing piece with
  | nil =>
    obtain rfl := List.mem_singleton.mp h
    simp
  | cons c rest ih =>
    by_cases hc : c = mark
    · subst hc
      rw [splitAt_cons_mark] at h
      rcases List.mem_cons.mp h with rfl | h
      · simp
      · exact ih h
    · obtain ⟨first, more, hrest, hcons⟩ := splitAt_cons_of_ne hc rest
      rw [hcons] at h
      rcases List.mem_cons.mp h with rfl | h
      · simpa [Ne.symm hc] using ih (by rw [hrest]; exact List.mem_cons_self)
      · exact ih (by rw [hrest]; exact List.mem_cons_of_mem _ h)

/-- A text is its pieces with marks between them. -/
theorem intercalate_splitAt (mark : Char) (cs : List Char) :
    [mark].intercalate (splitAt mark cs) = cs := by
  induction cs with
  | nil => rfl
  | cons c rest ih =>
    by_cases hc : c = mark
    · subst hc
      obtain ⟨first, more, hrest⟩ := List.exists_cons_of_ne_nil (splitAt_ne_nil c rest)
      rw [splitAt_cons_mark, hrest, List.intercalate_cons_cons, ← hrest, ih]
      rfl
    · obtain ⟨first, more, hrest, hcons⟩ := splitAt_cons_of_ne hc rest
      rw [hrest] at ih
      rw [hcons]
      cases more with
      | nil => simpa using ih
      | cons second more =>
        rw [List.intercalate_cons_cons] at ih ⊢
        rw [← ih]
        rfl

/-- The last piece stands behind one more separator. -/
theorem intercalate_concat {α : Type} (separator last : List α) {l : List (List α)} (h : l ≠ []) :
    separator.intercalate (l ++ [last]) = separator.intercalate l ++ (separator ++ last) := by
  induction l with
  | nil => exact absurd rfl h
  | cons first rest ih =>
    cases rest with
    | nil => simp
    | cons second rest =>
      have hrest := ih (List.cons_ne_nil second rest)
      rw [List.cons_append] at hrest
      rw [List.cons_append, List.cons_append, List.intercalate_cons_cons, hrest,
        List.intercalate_cons_cons, List.append_assoc, List.append_assoc, List.append_assoc]

/-- Whatever is no mark stands in a piece. -/
theorem mem_iff_exists_mem_splitAt {c : Char} (h : c ≠ mark) (cs : List Char) :
    c ∈ cs ↔ ∃ piece ∈ splitAt mark cs, c ∈ piece := by
  induction cs with
  | nil => simp [splitAt]
  | cons d rest ih =>
    by_cases hd : d = mark
    · subst hd
      rw [splitAt_cons_mark]
      simp [h, ih]
    · obtain ⟨first, more, hrest, hcons⟩ := splitAt_cons_of_ne hd rest
      rw [hcons]
      rw [hrest] at ih
      simp [ih, or_assoc]

/-- Pieces with a mark behind each. -/
def ended (mark : Char) (pieces : List (List Char)) : List Char :=
  pieces.flatMap (· ++ [mark])

@[simp] theorem ended_nil (mark : Char) : ended mark [] = [] := rfl

@[simp] theorem ended_cons (mark : Char) (piece : List Char) (rest : List (List Char)) :
    ended mark (piece :: rest) = piece ++ mark :: ended mark rest := by
  simp [ended]

/-- What is in pieces with marks is a mark or in a piece. -/
theorem mem_ended {c : Char} {pieces : List (List Char)} (h : c ∈ ended mark pieces) :
    c = mark ∨ ∃ piece ∈ pieces, c ∈ piece := by
  obtain ⟨piece, hpiece, hc⟩ := List.mem_flatMap.mp h
  rcases List.mem_append.mp hc with hc | hc
  · exact Or.inr ⟨piece, hpiece, hc⟩
  · exact Or.inl (List.mem_singleton.mp hc)

/-- A text is its last piece behind the other pieces. -/
theorem splitAt_ended_append {pieces : List (List Char)} (h : ∀ piece ∈ pieces, mark ∉ piece)
    {last : List Char} (hlast : mark ∉ last) :
    splitAt mark (ended mark pieces ++ last) = pieces ++ [last] := by
  induction pieces with
  | nil => exact splitAt_of_not_mem hlast
  | cons piece rest ih =>
    rw [ended_cons, List.append_assoc, List.cons_append,
      splitAt_append_cons (h piece List.mem_cons_self),
      ih fun piece hpiece => h piece (List.mem_cons_of_mem _ hpiece), List.cons_append]

/-- With a mark behind it, a text is its pieces with a mark behind each. -/
theorem ended_splitAt (mark : Char) (cs : List Char) :
    ended mark (splitAt mark cs) = cs ++ [mark] := by
  induction cs with
  | nil => rfl
  | cons c rest ih =>
    by_cases hc : c = mark
    · subst hc
      rw [splitAt_cons_mark, ended_cons, ih]
      rfl
    · obtain ⟨first, more, hrest, hcons⟩ := splitAt_cons_of_ne hc rest
      rw [hrest, ended_cons] at ih
      rw [hcons, ended_cons, List.cons_append, ih, List.cons_append]

/-- A piece of a text stands behind the pieces before it. -/
theorem exists_eq_ended_append {cs piece : List Char} {front back : List (List Char)}
    (h : splitAt mark cs = front ++ piece :: back) :
    ∃ rest, cs = ended mark front ++ (piece ++ rest) := by
  have happend (a b : List (List Char)) : ended mark (a ++ b) = ended mark a ++ ended mark b :=
    List.flatMap_append
  have hcs : cs ++ [mark] = ended mark front ++ (piece ++ mark :: ended mark back) := by
    rw [← ended_splitAt, h, happend, ended_cons]
  rcases List.eq_nil_or_concat back with rfl | ⟨back, last, rfl⟩
  · rw [ended_nil, ← List.append_assoc] at hcs
    exact ⟨[], by rw [List.append_nil]; exact List.append_cancel_right hcs⟩
  · have hback : mark :: ended mark (back.concat last) =
        (mark :: ended mark back ++ last) ++ [mark] := by
      rw [List.concat_eq_append, happend]
      simp
    rw [hback, ← List.append_assoc, ← List.append_assoc] at hcs
    exact ⟨mark :: ended mark back ++ last, by
      rw [← List.append_assoc]; exact List.append_cancel_right hcs⟩

/-- A front ends where something follows that does not belong to it. -/
theorem takeWhile_append_of_head {α : Type} {p : α → Bool} {rest : List α}
    (h : ∀ a ∈ rest.head?, p a = false) (l : List α) :
    (l ++ rest).takeWhile p = l.takeWhile p := by
  have hrest : rest.takeWhile p = [] := by
    cases rest with
    | nil => rfl
    | cons a rest => exact List.takeWhile_cons_of_neg (by simp [h a rfl])
  rw [List.takeWhile_append, hrest, List.append_nil]
  split
  · rename_i hlength
    exact ((List.takeWhile_prefix p).eq_of_length hlength).symm
  · rfl

/-- What a run of characters leaves is decided before a character that ends the run. -/
theorem dropWhile_append_of_head {α : Type} {p : α → Bool} {rest : List α}
    (h : ∀ a ∈ rest.head?, p a = false) (l : List α) :
    (l ++ rest).dropWhile p = l.dropWhile p ++ rest := by
  have hrest : rest.dropWhile p = rest := by
    cases rest with
    | nil => rfl
    | cons a rest => exact List.dropWhile_cons_of_neg (by simp [h a rfl])
  rw [List.dropWhile_append, hrest]
  split
  · rename_i hempty
    rw [List.isEmpty_iff.mp hempty, List.nil_append]
  · rfl

/-- What is kept of a list is a front of it, when nothing behind the front is kept. -/
theorem filter_eq_takeWhile {α : Type} {p q : α → Bool} {l : List α}
    (hfront : ∀ a ∈ l.takeWhile p, q a = true) (hback : ∀ a ∈ l.dropWhile p, q a = false) :
    l.filter q = l.takeWhile p := by
  have hnone : (l.dropWhile p).filter q = [] :=
    List.filter_eq_nil_iff.mpr fun a ha => Bool.eq_false_iff.mp (hback a ha)
  have hsplit := congrArg (List.filter q) (List.takeWhile_append_dropWhile (p := p) (l := l))
  rwa [List.filter_append, List.filter_eq_self.mpr hfront, hnone, List.append_nil,
    eq_comm] at hsplit

/-- Nothing behind a front belongs to it, when all before something that does belong do so too. -/
theorem eq_false_of_mem_dropWhile {α : Type} {p : α → Bool} {l : List α}
    (h : l.Pairwise fun a b => p b = true → p a = true) {a : α} (ha : a ∈ l.dropWhile p) :
    p a = false := by
  induction l with
  | nil => cases ha
  | cons first l ih =>
    obtain ⟨hfirst, hl⟩ := List.pairwise_cons.mp h
    by_cases hpass : p first = true
    · rw [List.dropWhile_cons_of_pos hpass] at ha
      exact ih hl ha
    · rw [List.dropWhile_cons_of_neg hpass] at ha
      rcases List.mem_cons.mp ha with rfl | ha
      · exact Bool.eq_false_iff.mpr hpass
      · exact Bool.eq_false_iff.mpr fun hlater => hpass (hfirst a ha hlater)

/-- What ends a text and holds no mark stands after the last mark. -/
theorem suffix_append_cons_iff {ending : List Char} (h : mark ∉ ending) (front last : List Char) :
    ending <:+ front ++ mark :: last ↔ ending <:+ last := by
  have hmarked : (mark :: last) <:+ front ++ mark :: last := List.suffix_append _ _
  have hlast : last <:+ front ++ mark :: last := (List.suffix_cons _ _).trans hmarked
  refine ⟨fun hending => ?_, fun hending => hending.trans hlast⟩
  rcases Nat.lt_or_ge last.length ending.length with hlength | hlength
  · have hmem := List.suffix_of_suffix_length_le hmarked hending (Nat.succ_le_of_lt hlength)
    exact absurd (hmem.subset List.mem_cons_self) h
  · exact List.suffix_of_suffix_length_le hending hlast hlength

end ScriptModules.Text

import Mathlib.Data.List.TakeWhile
import ScriptModules.Grammar.Lexeme
import ScriptModules.Proofs.Text.Offsets

/-!
# What tokens are made of

The words and numbers of a text hold no line break, and a string ends with its quote. So none of
these tokens is empty or ends a line.
-/

namespace ScriptModules.Grammar.Lexeme

open Text (isBreak)

/-- A text without line breaks. -/
def Plain (cs : List Char) : Prop := ∀ c ∈ cs, isBreak c = false

/-- A text whose last character is no line break. -/
def EndsPlain (cs : List Char) : Prop := ∃ c ∈ cs.getLast?, isBreak c = false

variable {cs : List Char} {n m : Nat} {c : Char}

namespace Plain

theorem nil : Plain [] := fun _ h => absurd h List.not_mem_nil

theorem cons (hc : isBreak c = false) (h : Plain cs) : Plain (c :: cs) := by
  intro d hd
  rcases List.mem_cons.mp hd with rfl | hd
  · exact hc
  · exact h d hd

theorem append {ds : List Char} (h : Plain cs) (h' : Plain ds) : Plain (cs ++ ds) := by
  intro c hc
  rcases List.mem_append.mp hc with hc | hc
  · exact h c hc
  · exact h' c hc

/-- A text with characters of a plain one only is plain. -/
theorem mono {ds : List Char} (h : Plain cs) (hsub : ds ⊆ cs) : Plain ds :=
  fun c hc => h c (hsub hc)

/-- A plain text ends plainly. -/
theorem endsPlain (h : Plain cs) (hne : cs ≠ []) : EndsPlain cs :=
  ⟨_, List.getLast?_eq_some_getLast hne, h _ (List.getLast_mem hne)⟩

/-- What is taken in two steps. -/
theorem take_add (h : Plain (cs.take n)) (h' : Plain ((cs.drop n).take m)) :
    Plain (cs.take (n + m)) := by
  rw [List.take_add]
  exact h.append h'

/-- A character that breaks no line is plain by itself. -/
theorem take_one (h : cs[0]? = some c) (hc : isBreak c = false) : Plain (cs.take 1) := by
  cases cs with
  | nil => exact nil
  | cons d rest =>
    obtain rfl : d = c := by simpa using h
    exact cons hc nil

end Plain

/-- A class of characters without line ends holds no line break. -/
theorem isBreak_eq_false_of {p : Char → Bool} (hline : p '\n' = false) (hreturn : p '\r' = false)
    (hc : p c = true) : isBreak c = false := by
  rw [Bool.eq_false_iff]
  intro hbreak
  rcases Text.isBreak_iff.mp hbreak with rfl | rfl
  · rw [hline] at hc
    cases hc
  · rw [hreturn] at hc
    cases hc

/-- A run of characters that are no line breaks. -/
theorem plain_takeWhile {p : Char → Bool} (hline : p '\n' = false) (hreturn : p '\r' = false)
    (cs : List Char) : Plain (cs.take (cs.takeWhile p).length) := by
  rw [← List.prefix_iff_eq_take.mp (List.takeWhile_prefix p)]
  exact fun c hc => isBreak_eq_false_of hline hreturn (List.mem_takeWhile_imp hc)

/-- A mark is read as its own text. -/
theorem take_of_mark? {text : String} {longer : List String} (h : mark? text longer cs = some n) :
    cs.take n = text.toList := by
  unfold mark? at h
  split at h
  · rename_i hmark
    obtain rfl := Option.some.inj h
    have hprefix : text.toList <+: cs :=
      List.isPrefixOf_iff_prefix.mp (Bool.and_eq_true_iff.mp hmark).1
    rw [← String.length_toList]
    exact (List.prefix_iff_eq_take.mp hprefix).symm
  · cases h

/-- An escape in a word is on one line and not empty. -/
theorem plain_of_wordEscape? (h : wordEscape? cs = some n) : Plain (cs.take n) ∧ 0 < n := by
  unfold wordEscape? at h
  split at h
  · rename_i r
    dsimp only at h
    split at h
    · rename_i hdigits
      rw [Bool.and_eq_true_iff, beq_iff_eq] at hdigits
      obtain rfl := Option.some.inj h
      have hclose : Plain ((r.drop (r.takeWhile isHexDigit).length).take 1) :=
        Plain.take_one (by simpa using hdigits.2) (by decide)
      refine ⟨?_, Nat.succ_pos _⟩
      exact .cons (by decide) (.cons (by decide) (.cons (by decide)
        ((plain_takeWhile (by decide) (by decide) r).take_add hclose)))
    · cases h
  · split at h
    · rename_i hdigits
      simp only [Bool.and_eq_true] at hdigits
      obtain ⟨⟨⟨ha, hb⟩, hc⟩, hd⟩ := hdigits
      obtain rfl := Option.some.inj h
      have hhex {c : Char} : isHexDigit c = true → isBreak c = false :=
        isBreak_eq_false_of (by decide) (by decide)
      exact ⟨.cons (by decide) (.cons (by decide) (.cons (hhex ha) (.cons (hhex hb)
        (.cons (hhex hc) (.cons (hhex hd) .nil))))), by decide⟩
    · cases h
  · cases h

/-- A word stays on its line as far as it goes on. -/
theorem plain_wordTail {inner : Nat} (h : Plain (cs.take inner)) :
    Plain (cs.take (wordTail inner cs)) := by
  induction cs generalizing inner with
  | nil => exact .nil
  | cons c rest ih =>
    cases inner with
    | succ inner =>
      rw [wordTail]
      exact .cons (h c List.mem_cons_self) (ih (h.mono (List.subset_cons_self _ _)))
    | zero =>
      rw [wordTail]
      split
      · rename_i hword
        exact .cons (isBreak_eq_false_of (by decide) (by decide) hword) (ih .nil)
      · cases hescape : wordEscape? (c :: rest) with
        | none => exact .nil
        | some n =>
          obtain ⟨hplain, hpos⟩ := plain_of_wordEscape? hescape
          obtain ⟨n, rfl⟩ := Nat.exists_eq_add_of_lt hpos
          rw [Nat.zero_add, List.take_succ_cons] at hplain
          dsimp only
          rw [Nat.zero_add, Nat.add_sub_cancel]
          exact .cons (hplain c List.mem_cons_self) (ih (hplain.mono (List.subset_cons_self _ _)))

/-- A word is on one line and not empty. -/
theorem plain_of_word? (h : word? cs = some n) : Plain (cs.take n) ∧ cs.take n ≠ [] := by
  unfold word? at h
  split at h
  · cases h
  · split at h
    · cases h
    · split at h
      · cases h
      · rename_i hpos
        obtain rfl := Option.some.inj h
        refine ⟨plain_wordTail .nil, ?_⟩
        simpa using hpos

/-- A keyword is read as its own text. -/
theorem take_of_keyword? {text : String} (h : keyword? text cs = some n) :
    cs.take n = text.toList := by
  obtain ⟨m, -, h⟩ := Option.bind_eq_some_iff.mp h
  split at h
  · rename_i heq
    obtain rfl := Option.some.inj h
    exact beq_iff_eq.mp heq
  · cases h

/-- A name is on one line and not empty. -/
theorem plain_of_name? {reserved : List String} (h : name? reserved cs = some n) :
    Plain (cs.take n) ∧ cs.take n ≠ [] := by
  obtain ⟨m, hword, h⟩ := Option.bind_eq_some_iff.mp h
  split at h
  · cases h
  · obtain rfl := Option.some.inj h
    exact plain_of_word? hword

/-- A private name is on one line and not empty. -/
theorem plain_of_privateName? (h : privateName? cs = some n) :
    Plain (cs.take n) ∧ cs.take n ≠ [] := by
  unfold privateName? at h
  split at h
  · obtain ⟨m, hword, rfl⟩ := Option.map_eq_some_iff.mp h
    exact ⟨.cons (by decide) (plain_of_word? hword).1, by simp⟩
  · cases h

/-- A name with hyphens is on one line and not empty. -/
theorem plain_of_hyphenName? (h : hyphenName? cs = some n) :
    Plain (cs.take n) ∧ cs.take n ≠ [] := by
  unfold hyphenName? at h
  split at h
  · cases h
  · rename_i c rest
    split at h
    · rename_i hstart
      dsimp only at h
      split at h
      · obtain rfl := Option.some.inj h
        refine ⟨plain_takeWhile (by decide) (by decide) _, ?_⟩
        simp only [Bool.or_eq_true] at hstart
        rw [List.takeWhile_cons_of_pos (by
          rcases hstart with (hstart | hstart) | hstart <;> simp [Char.isAlphanum, hstart])]
        exact List.cons_ne_nil _ _
      · cases h
    · cases h

/-- A run of digits of any base is on one line. -/
theorem plain_digitRun {p : Char → Bool} (hline : p '\n' = false) (hreturn : p '\r' = false)
    (cs : List Char) : Plain (cs.take (digitRun p cs)) := by
  have hdigit {c : Char} : p c = true → isBreak c = false := isBreak_eq_false_of hline hreturn
  fun_induction digitRun p cs with
  | case1 => exact .nil
  | case2 c d rest hc hd ih => exact .cons (hdigit hc) (.cons (by decide) ih)
  | case3 c d rest hc => exact .cons (hdigit hc) .nil
  | case4 => exact .nil
  | case5 c rest _ hc ih => exact .cons (hdigit hc) ih
  | case6 => exact .nil

/-- Digits with a base before them are on one line and not empty. -/
theorem plain_of_basedRun? (h : basedRun? cs = some n) : Plain (cs.take n) ∧ 0 < n := by
  unfold basedRun? at h
  split at h
  · rename_i x r
    dsimp only at h
    split at h
    · cases h
    · cases h
    · rename_i m _ hrun
      obtain rfl := Option.some.inj h
      refine ⟨?_, Nat.succ_pos _⟩
      obtain ⟨p, hp, rfl⟩ := Option.map_eq_some_iff.mp hrun
      refine .cons (by decide) (.cons ?_ ?_)
      · rw [Bool.eq_false_iff]
        intro hbreak
        rcases Text.isBreak_iff.mp hbreak with rfl | rfl <;> simp at hp
      · split at hp
        · obtain rfl := Option.some.inj hp
          exact plain_digitRun (by decide) (by decide) r
        · split at hp
          · obtain rfl := Option.some.inj hp
            exact plain_digitRun (by decide) (by decide) r
          · split at hp
            · obtain rfl := Option.some.inj hp
              exact plain_digitRun (by decide) (by decide) r
            · cases hp
  · cases h

theorem plain_digits (cs : List Char) : Plain (cs.take (digitRun Char.isDigit cs)) :=
  plain_digitRun (by decide) (by decide) cs

/-- The integer part of a number is on one line and not empty. -/
theorem plain_of_integerPart? (h : integerPart? cs = some n) : Plain (cs.take n) ∧ 0 < n := by
  unfold integerPart? at h
  split at h
  · split at h
    · split at h
      · obtain rfl := Option.some.inj h
        exact ⟨.cons (by decide) (plain_digits _), Nat.succ_pos _⟩
      · obtain rfl := Option.some.inj h
        exact ⟨.cons (by decide) .nil, by decide⟩
    · obtain rfl := Option.some.inj h
      exact ⟨.cons (by decide) .nil, by decide⟩
  · split at h
    · cases h
    · rename_i hpos
      obtain rfl := Option.some.inj h
      exact ⟨plain_digits _, Nat.pos_of_ne_zero hpos⟩

/-- An exponent is on one line. -/
theorem plain_exponentRun (cs : List Char) : Plain (cs.take (exponentRun cs)) := by
  unfold exponentRun
  split
  · rename_i e r
    split
    · rename_i he
      have hletter : isBreak e = false := by
        rw [Bool.eq_false_iff]
        intro hbreak
        rcases Text.isBreak_iff.mp hbreak with rfl | rfl <;> simp at he
      extract_lets sign
      have hsign : Plain (r.take sign) := by
        unfold sign
        split
        · split
          · rename_i hc
            refine .cons ?_ .nil
            rw [Bool.eq_false_iff]
            intro hbreak
            rcases Text.isBreak_iff.mp hbreak with rfl | rfl <;> simp at hc
          · exact .nil
        · exact .nil
      split
      · exact .nil
      · rw [Nat.add_comm _ sign]
        exact .cons hletter (hsign.take_add (plain_digits _))
    · exact .nil
  · exact .nil

/-- The longest of several lengths is one of them. -/
theorem mem_of_longest {lengths : List (Option Nat)} {start : Option Nat}
    (h : lengths.foldl (fun best length =>
      match best, length with
      | some a, some b => some (max a b)
      | a, none => a
      | none, b => b) start = some n) : start = some n ∨ some n ∈ lengths := by
  induction lengths generalizing start with
  | nil => exact Or.inl h
  | cons length rest ih =>
    rcases ih h with hstart | hrest
    · cases start <;> cases length <;> simp at hstart
      · simp [hstart]
      · simp [hstart]
      · rename_i a b
        rcases Nat.le_total a b with hle | hle
        · simp [← hstart, Nat.max_eq_right hle]
        · simp [← hstart, Nat.max_eq_left hle]
    · exact Or.inr (List.mem_cons_of_mem _ hrest)

/-- A number is on one line and not empty. -/
theorem plain_of_number? (h : number? cs = some n) : Plain (cs.take n) ∧ 0 < n := by
  unfold number? at h
  extract_lets withBigMark based plain pointed fraction at h
  have hmarked {m : Nat} (hm : Plain (cs.take m)) : Plain (cs.take (withBigMark m)) := by
    unfold withBigMark
    split
    · rename_i hmark
      exact hm.take_add (Plain.take_one (by simpa using hmark) (by decide))
    · exact hm
  have hmarkedPos {m : Nat} (hm : 0 < m) : 0 < withBigMark m := by
    unfold withBigMark
    split <;> omega
  have hpoint {m : Nat} (hm : cs[m]? = some '.') : Plain ((cs.drop m).take 1) :=
    Plain.take_one (by simpa using hm) (by decide)
  rcases mem_of_longest h with hnone | hmem
  · cases hnone
  simp only [List.mem_cons, List.not_mem_nil, or_false] at hmem
  rcases hmem with hbased | hplain | hpointed | hfraction
  · obtain ⟨m, hm, rfl⟩ := Option.map_eq_some_iff.mp hbased.symm
    obtain ⟨hplain, hpos⟩ := plain_of_basedRun? hm
    exact ⟨hmarked hplain, hmarkedPos hpos⟩
  · unfold plain at hplain
    split at hplain
    · cases hplain
    · rename_i hpos
      obtain rfl := Option.some.inj hplain
      exact ⟨hmarked (plain_digits cs), hmarkedPos (Nat.pos_of_ne_zero hpos)⟩
  · unfold pointed at hpointed
    split at hpointed
    · cases hpointed
    · rename_i m hinteger
      obtain ⟨hplain, hpos⟩ := plain_of_integerPart? hinteger
      split at hpointed
      · rename_i hdot
        obtain rfl := Option.some.inj hpointed
        have hfront : Plain (cs.take (m + 1)) := hplain.take_add (hpoint (beq_iff_eq.mp hdot))
        exact ⟨(hfront.take_add (plain_digits _)).take_add (plain_exponentRun _), by omega⟩
      · split at hpointed
        · cases hpointed
        · obtain rfl := Option.some.inj hpointed
          exact ⟨hplain.take_add (plain_exponentRun _), by omega⟩
  · unfold fraction at hfraction
    split at hfraction
    · rename_i r
      split at hfraction
      · cases hfraction
      · obtain rfl := Option.some.inj hfraction
        have hdigits : Plain (('.' :: r).take (digitRun Char.isDigit r + 1)) :=
          .cons (by decide) (plain_digits r)
        exact ⟨hdigits.take_add (plain_exponentRun _), by omega⟩
    · cases hfraction

/-- A quotation mark breaks no line. -/
theorem isBreak_of_isQuote (h : isQuote c = true) : isBreak c = false :=
  isBreak_eq_false_of (by decide) (by decide) h

/-- What ends plainly still does with a character before it. -/
theorem EndsPlain.cons (c : Char) (h : EndsPlain cs) : EndsPlain (c :: cs) := by
  obtain ⟨d, hd, hplain⟩ := h
  refine ⟨d, ?_, hplain⟩
  rw [List.getLast?_cons, Option.mem_def.mp hd]
  rfl

/-- What remains of a string ends with its quote. -/
theorem endsPlain_of_stringTail? {quote : Char} {inner : Nat} (hquote : isBreak quote = false)
    (h : stringTail? quote inner cs = some n) : EndsPlain (cs.take n) := by
  induction cs generalizing inner n with
  | nil => cases h
  | cons c rest ih =>
    have hmore {inner : Nat} (h : (stringTail? quote inner rest).map (· + 1) = some n) :
        EndsPlain ((c :: rest).take n) := by
      obtain ⟨m, hm, rfl⟩ := Option.map_eq_some_iff.mp h
      exact (ih hm).cons c
    cases inner with
    | succ inner => exact hmore (by simpa [stringTail?] using h)
    | zero =>
      rw [stringTail?] at h
      split at h
      · rename_i hc
        obtain rfl := Option.some.inj h
        rw [beq_iff_eq.mp hc]
        exact ⟨quote, rfl, hquote⟩
      · split at h
        · split at h
          · exact hmore h
          · cases h
        · split at h
          · dsimp only at h
            split at h
            · rename_i hclose
              obtain rfl := Option.some.inj h
              refine ⟨quote, ?_, hquote⟩
              rw [List.take_succ_cons, List.take_add_one, beq_iff_eq.mp hclose,
                Option.toList_some, ← List.cons_append, List.getLast?_concat]
              rfl
            · cases h
          · exact hmore h

/-- A string ends in its quotation mark, and so plainly. -/
theorem endsPlain_of_string? (h : string? cs = some n) : EndsPlain (cs.take n) := by
  unfold string? at h
  split at h
  · split at h
    · rename_i hquote
      obtain ⟨m, hm, rfl⟩ := Option.map_eq_some_iff.mp h
      exact (endsPlain_of_stringTail? (isBreak_of_isQuote hquote) hm).cons _
    · cases h
  · cases h

/-- A text that starts with a character other than a space or a line break. -/
def BeginsVisible (cs : List Char) : Prop := ∃ c ∈ cs.head?, c ≠ ' ' ∧ isBreak c = false

/-- The front of a text that starts visibly does so if it is not empty. -/
theorem BeginsVisible.take (h : BeginsVisible cs) (hpos : 0 < n) : BeginsVisible (cs.take n) := by
  obtain ⟨c, hc, hvisible⟩ := h
  refine ⟨c, ?_, hvisible⟩
  rwa [List.head?_take, if_neg (Nat.ne_of_gt hpos)]

/-- A character of a class that has neither spaces nor line breaks starts a text visibly. -/
theorem beginsVisible_cons {p : Char → Bool} (hspace : p ' ' = false) (hline : p '\n' = false)
    (hreturn : p '\r' = false) (hc : p c = true) (rest : List Char) :
    BeginsVisible (c :: rest) := by
  refine ⟨c, rfl, ?_, isBreak_eq_false_of hline hreturn hc⟩
  rintro rfl
  rw [hspace] at hc
  cases hc

/-- An escape in a word starts visibly. -/
theorem beginsVisible_of_wordEscape? (h : wordEscape? cs = some n) : BeginsVisible cs := by
  unfold wordEscape? at h
  split at h
  · exact ⟨_, rfl, by decide, by decide⟩
  · exact ⟨_, rfl, by decide, by decide⟩
  · cases h

/-- A word starts visibly. -/
theorem beginsVisible_of_word? (h : word? cs = some n) : BeginsVisible (cs.take n) := by
  unfold word? at h
  split at h
  · cases h
  · rename_i c rest
    split at h
    · cases h
    · split at h
      · cases h
      · rename_i hpos
        obtain rfl := Option.some.inj h
        refine BeginsVisible.take ?_ (Nat.pos_of_ne_zero hpos)
        rw [wordTail] at hpos
        split at hpos
        · rename_i hword
          exact beginsVisible_cons (by decide) (by decide) (by decide) hword rest
        · split at hpos
          · exact beginsVisible_of_wordEscape? ‹_›
          · exact absurd rfl hpos

/-- A name starts visibly. -/
theorem beginsVisible_of_name? {reserved : List String} (h : name? reserved cs = some n) :
    BeginsVisible (cs.take n) := by
  obtain ⟨m, hword, h⟩ := Option.bind_eq_some_iff.mp h
  split at h
  · cases h
  · obtain rfl := Option.some.inj h
    exact beginsVisible_of_word? hword

/-- A name with hyphens starts visibly. -/
theorem beginsVisible_of_hyphenName? (h : hyphenName? cs = some n) :
    BeginsVisible (cs.take n) := by
  have hpos := List.length_pos_iff.mpr (plain_of_hyphenName? h).2
  unfold hyphenName? at h
  split at h
  · cases h
  · rename_i c rest
    split at h
    · rename_i hstart
      refine (beginsVisible_cons (p := fun c => c.isAlpha || c == '_' || c == '$') (by decide)
        (by decide) (by decide) hstart rest).take ?_
      exact Nat.pos_of_ne_zero fun hzero => by simp [hzero] at hpos
    · cases h

/-- A quotation mark is visible. -/
theorem beginsVisible_of_isQuote (h : isQuote c = true) (rest : List Char) :
    BeginsVisible (c :: rest) :=
  beginsVisible_cons (by decide) (by decide) (by decide) h rest

/-- A string starts with its quotation mark, and so visibly. -/
theorem beginsVisible_of_string? (h : string? cs = some n) : BeginsVisible (cs.take n) := by
  unfold string? at h
  split at h
  · split at h
    · obtain ⟨m, -, rfl⟩ := Option.map_eq_some_iff.mp h
      exact (beginsVisible_of_isQuote ‹_› _).take (Nat.succ_pos m)
    · cases h
  · cases h

/-- A string in markup starts with its quotation mark, and so visibly. -/
theorem beginsVisible_of_markupString? (h : markupString? cs = some n) :
    BeginsVisible (cs.take n) := by
  unfold markupString? at h
  split at h
  · split at h
    · dsimp only at h
      split at h
      · obtain rfl := Option.some.inj h
        exact (beginsVisible_of_isQuote ‹_› _).take (Nat.succ_pos _)
      · cases h
    · cases h
  · cases h

end ScriptModules.Grammar.Lexeme

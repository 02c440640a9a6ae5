import Mathlib.Data.List.TakeWhile
import ScriptModules.Proofs.Json.Numerals
import ScriptModules.Proofs.Json.Spelling
import ScriptModules.Proofs.Text.Lines

/-!
# Places of faults

A reader goes on from the place where it starts, and notices a fault behind some of the bytes that
are ahead of it. The line of a fault is told by the line feeds among the characters of these bytes.
-/

namespace ScriptModules.Json

variable {α β : Type} {p q r : Place} {f : Fault}

namespace Place

/-- The second place is come to from the first by stepping over characters. -/
inductive Onward : Place → Place → Prop
  | refl (p : Place) : Onward p p
  | step {p q : Place} (h : Onward p.next q) : Onward p q

/-- Stepping over characters may be done in two goes. -/
theorem Onward.trans (h : Onward p q) (h' : Onward q r) : Onward p r := by
  induction h with
  | refl => exact h'
  | step _ ih => exact .step (ih h')

/-- The next place is come to by stepping over one character, or is the same at the end. -/
theorem onward_next (p : Place) : Onward p p.next := .step (.refl _)

/-- A character of one byte that ends no line. -/
def IsPlain (c : Char) : Prop := c.utf8Size = 1 ∧ c ≠ '\n'

/-- A plain character is one column wide. -/
theorem next_of_isPlain {c : Char} (hc : IsPlain c) (rest : List Char) (line column : Nat) :
    next ⟨c :: rest, line, column⟩ = ⟨rest, line, column + 1⟩ := by
  rw [next, if_neg (by simpa using hc.2), hc.1]

/-- Plain characters are counted by the columns that they take. -/
theorem onward_plain {cs : List Char} (h : ∀ c ∈ cs, IsPlain c) (rest : List Char)
    (line column : Nat) : Onward ⟨cs ++ rest, line, column⟩ ⟨rest, line, column + cs.length⟩ := by
  induction cs generalizing column with
  | nil => exact .refl _
  | cons c cs ih =>
    obtain ⟨hc, hcs⟩ := List.forall_mem_cons.mp h
    have hstep := ih hcs (column + 1)
    rw [← next_of_isPlain hc, Nat.add_assoc, Nat.add_comm 1] at hstep
    exact .step hstep

/-- Blanks are stepped over. -/
theorem onward_skipBlanks (p : Place) : Onward p p.skipBlanks := by
  fun_induction skipBlanks p with
  | case1 => exact .refl _
  | case2 c r line column hc ih =>
    have hnext : next ⟨c :: r, line, column⟩ = ⟨r, line + 1, 0⟩ := if_pos hc
    exact .step (hnext ▸ ih)
  | case3 c r line column hline hc ih =>
    have hplain : IsPlain c := by
      simp only [Bool.or_eq_true, beq_iff_eq] at hc
      rcases hc with (rfl | rfl) | rfl <;> exact ⟨rfl, by decide⟩
    exact .step (next_of_isPlain hplain r line column ▸ ih)
  | case4 => exact .refl _

/-- What is at most the last character of one byte takes one byte. -/
theorem utf8Size_of_le {c last : Char} (h : c ≤ last) (hlast : last.val ≤ 0x7F) :
    c.utf8Size = 1 := if_pos (UInt32.le_trans h hlast)

/-- A digit is one byte that ends no line. -/
theorem isPlain_of_isDigit {c : Char} (hc : c.isDigit = true) : IsPlain c := by
  constructor
  · simp only [Char.isDigit, Bool.and_eq_true, decide_eq_true_eq] at hc
    have hle : c ≤ '9' := hc.2
    exact utf8Size_of_le hle (by decide)
  · rintro rfl
    cases hc

/-- A digit of a code unit is one byte that ends no line. -/
theorem isPlain_of_hexValue? {c : Char} {n : Nat} (h : hexValue? c = some n) : IsPlain c := by
  have hfeed : c ≠ '\n' := by
    rintro rfl
    cases h
  unfold hexValue? at h
  split at h
  · rename_i hdigit
    exact isPlain_of_isDigit hdigit
  · split at h
    · rename_i hletter
      simp only [Bool.and_eq_true, decide_eq_true_eq] at hletter
      exact ⟨utf8Size_of_le hletter.2 (by decide), hfeed⟩
    · split at h
      · rename_i hletter
        simp only [Bool.and_eq_true, decide_eq_true_eq] at hletter
        exact ⟨utf8Size_of_le hletter.2 (by decide), hfeed⟩
      · cases h

/-- The digits ahead may be stepped over in part. -/
theorem onward_drop {n : Nat} (hn : n ≤ (p.rest.takeWhile Char.isDigit).length) :
    Onward p ⟨p.rest.drop n, p.line, p.column + n⟩ := by
  have htake : p.rest.take n = (p.rest.takeWhile Char.isDigit).take n := by
    rw [← List.takeWhile_append_dropWhile (p := Char.isDigit) (l := p.rest),
      List.take_append_of_le_length hn, List.takeWhile_append_dropWhile]
  have hdigits : ∀ d ∈ p.rest.take n, IsPlain d := by
    intro d hd
    rw [htake] at hd
    exact isPlain_of_isDigit (List.mem_takeWhile_imp (List.mem_of_mem_take hd))
  have hlength : (p.rest.take n).length = n := by
    rw [htake, List.length_take_of_le hn]
  have h := onward_plain hdigits (p.rest.drop n) p.line p.column
  rwa [List.take_append_drop, hlength] at h

/-- Digits are stepped over. -/
theorem onward_skipDigits (p : Place) : Onward p p.skipDigits := onward_drop (Nat.le_refl _)

/-- The first of some digits is skipped as all others are. -/
theorem skipDigits_of_isDigit {c : Char} {rest : List Char} (h : p.rest = c :: rest)
    (hc : c.isDigit = true) : p.skipDigits = p.next.skipDigits := by
  obtain ⟨_, line, column⟩ := p
  obtain rfl := h
  rw [next_of_isPlain (isPlain_of_isDigit hc)]
  simp [skipDigits, hc, Nat.add_assoc, Nat.add_comm 1]

/-- A fault is told with the line and column behind some of the bytes ahead. -/
def Notices (p : Place) (f : Fault) : Prop := ∃ n, (f.line, f.column) = p.afterBytes n

/-- Behind no bytes is the place itself. -/
theorem afterBytes_zero (p : Place) : p.afterBytes 0 = (p.line, p.column) := by
  rw [afterBytes]

/-- Behind a character and more bytes is what is behind these from the next place on. -/
theorem afterBytes_next {c : Char} {rest : List Char} (h : p.rest = c :: rest) (n : Nat) :
    p.afterBytes (c.utf8Size + n) = p.next.afterBytes n := by
  obtain ⟨m, hm⟩ := Nat.exists_eq_add_one_of_ne_zero (Nat.ne_of_gt c.utf8Size_pos)
  have hsucc : c.utf8Size + n = m + n + 1 := by omega
  rw [hsucc, afterBytes, h]
  simp only
  rw [if_neg (by omega)]
  congr 1
  omega

/-- A fault of a place is told with nothing read ahead. -/
theorem notices_fault (p : Place) (cause : Cause) : p.Notices (p.fault cause) :=
  ⟨0, (afterBytes_zero p).symm⟩

/-- A fault ahead is told behind the next character. -/
theorem notices_faultAhead (p : Place) (cause : Cause) : p.Notices (p.faultAhead cause) :=
  ⟨1, rfl⟩

/-- A fault is told with a byte ahead read, if there is one. -/
def NoticesAhead (p : Place) (f : Fault) : Prop :=
  ∃ n, (p.rest = [] ∨ 0 < n) ∧ (f.line, f.column) = p.afterBytes n

/-- A fault ahead has the next byte read, if there is one. -/
theorem noticesAhead_faultAhead (p : Place) (cause : Cause) :
    p.NoticesAhead (p.faultAhead cause) := ⟨1, Or.inr Nat.one_pos, rfl⟩

/-- A fault that is told with a byte ahead read is told behind bytes ahead. -/
theorem NoticesAhead.notices (h : p.NoticesAhead f) : p.Notices f := by
  obtain ⟨n, -, hn⟩ := h
  exact ⟨n, hn⟩

/-- A fault that is noticed from the next place on has the byte between read. -/
theorem Notices.ahead {c : Char} {rest : List Char} (h : p.next.Notices f)
    (hrest : p.rest = c :: rest) : p.NoticesAhead f := by
  obtain ⟨n, hn⟩ := h
  have hsize := c.utf8Size_pos
  exact ⟨c.utf8Size + n, Or.inr (by omega), by rw [afterBytes_next hrest, hn]⟩

/-- At the end there is no next place. -/
theorem next_of_rest_eq_nil (h : p.rest = []) : p.next = p := by
  obtain ⟨_, line, column⟩ := p
  obtain rfl := h
  rfl

/-- What is noticed from a place that is further on is noticed from here. -/
theorem Onward.notices (h : Onward p q) (hf : q.Notices f) : p.Notices f := by
  induction h with
  | refl => exact hf
  | @step p q _ ih =>
    cases hrest : p.rest with
    | nil => exact next_of_rest_eq_nil hrest ▸ ih hf
    | cons c rest => exact ((ih hf).ahead hrest).notices

/-- What is told with a byte ahead read is so from a place before, too. -/
theorem Onward.noticesAhead (h : Onward p q) (hf : q.NoticesAhead f) : p.NoticesAhead f := by
  induction h with
  | refl => exact hf
  | @step p q _ ih =>
    cases hrest : p.rest with
    | nil => exact next_of_rest_eq_nil hrest ▸ ih hf
    | cons c rest => exact (ih hf).notices.ahead hrest

end Place

open Place (Onward onward_next onward_skipBlanks onward_skipDigits notices_fault
  notices_faultAhead noticesAhead_faultAhead)

/-- A reader comes to a place further on, or notices a fault behind bytes ahead. -/
def GoesOn (place : α → Place) (p : Place) : Except Fault α → Prop
  | .ok x => Onward p (place x)
  | .error f => p.Notices f

/-- A reader goes on, and reads a byte before it notices a fault, if there is one. -/
def GoesAhead (place : α → Place) (p : Place) : Except Fault α → Prop
  | .ok x => Onward p (place x)
  | .error f => p.NoticesAhead f

namespace GoesOn

variable {place : α → Place} {place' : β → Place} {read : Except Fault α}

/-- A reader that goes on from a place goes on from every place before it. -/
theorem of_onward (h : Onward p q) (hread : GoesOn place q read) : GoesOn place p read := by
  cases read with
  | ok x => exact h.trans hread
  | error f => exact h.notices hread

/-- Readers go on one after the other. -/
theorem bind {next : α → Except Fault β} (h : GoesOn place p read)
    (hnext : ∀ x, GoesOn place' (place x) (next x)) : GoesOn place' p (read >>= next) := by
  cases read with
  | ok x => exact (hnext x).of_onward h
  | error f => exact h

/-- A reader goes on whatever is made of what it reads. -/
theorem map {make : α → β} (h : GoesOn place p read)
    (hmake : ∀ x, Onward (place x) (place' (make x))) : GoesOn place' p (read.map make) :=
  match read, h with
  | .ok x, h => h.trans (hmake x)
  | .error _, h => h

/-- A reader that goes on from the next place has read the byte before it. -/
theorem ahead {c : Char} {rest : List Char} (h : GoesOn place p.next read)
    (hrest : p.rest = c :: rest) : GoesAhead place p read := by
  cases read with
  | ok x => exact .step h
  | error f => exact Place.Notices.ahead h hrest

end GoesOn

namespace GoesAhead

variable {place : α → Place} {read : Except Fault α}

/-- A reader that reads a byte first goes on. -/
theorem goesOn (h : GoesAhead place p read) : GoesOn place p read := by
  cases read with
  | ok x => exact h
  | error f => exact h.notices

/-- A reader that reads a byte first does so from every place before. -/
theorem of_onward (h : Onward p q) (hread : GoesAhead place q read) : GoesAhead place p read := by
  cases read with
  | ok x => exact h.trans hread
  | error f => exact h.noticesAhead hread

end GoesAhead

/-- Reading a word goes on, or tells the first character that is another. -/
theorem goesOn_readWord (cs : List Char) (p : Place) : GoesOn id p (readWord cs p) := by
  induction cs generalizing p with
  | nil => exact .refl p
  | cons c cs ih =>
    rw [readWord]
    split
    · exact notices_fault p _
    · split
      · exact (ih p.next).of_onward (onward_next p)
      · exact notices_faultAhead p _

/-- A number that is too large is told where it ends. -/
theorem goesOn_finishFloat (negative : Bool) (significand : Nat) (exponent : Int) (p : Place) :
    GoesOn Prod.snd p (finishFloat negative significand exponent p) := by
  rw [finishFloat]
  split
  · exact .refl p
  · exact notices_fault p _

/-- A sign is stepped over. -/
theorem onward_readSign (p : Place) : Onward p (readSign p).2 := by
  rw [readSign]
  split
  · exact onward_next p
  · exact onward_next p
  · exact .refl p

/-- No more digits are counted than there are. -/
theorem count_digits_le (ds : List Char) (counted : Nat × Nat) :
    (ds.foldl (fun (n, count) d =>
      if n < Nat.pow 2 31 then (10 * n + (d.toNat - '0'.toNat), count + 1) else (n, count))
      counted).2 ≤ counted.2 + ds.length := by
  induction ds generalizing counted with
  | nil => exact Nat.le_refl _
  | cons d ds ih =>
    rw [List.foldl_cons, List.length_cons]
    refine (ih _).trans ?_
    dsimp only
    split <;> simp only <;> omega

/-- Reading a power goes on. -/
theorem goesOn_readPower (negative : Bool) (significand : Nat) (exponent : Int) (down : Bool)
    (p : Place) : GoesOn Prod.snd p (readPower negative significand exponent down p) := by
  rw [readPower]
  split
  · exact notices_fault p _
  · split
    · exact notices_faultAhead p _
    · dsimp only
      split
      · exact (goesOn_finishFloat ..).of_onward (onward_skipDigits p)
      · split
        · have hcount := count_digits_le (p.rest.takeWhile Char.isDigit) (0, 0)
          rw [Nat.zero_add] at hcount
          exact (Place.onward_drop hcount).notices (notices_fault _ _)
        · exact onward_skipDigits p

/-- Reading an exponent goes on if finishing without one does. -/
theorem goesOn_readRaised {finish : Except Fault (Number × Place)} (negative : Bool)
    (significand : Nat) (exponent : Int) (hfinish : GoesOn Prod.snd p finish) :
    GoesOn Prod.snd p (readRaised negative significand exponent p finish) := by
  have hexponent : GoesOn Prod.snd p (readExponent negative significand exponent p.next) :=
    (goesOn_readPower ..).of_onward ((onward_next p).trans (onward_readSign p.next))
  rw [readRaised]
  split
  · exact hexponent
  · exact hexponent
  · exact hfinish

/-- Reading a fraction goes on. -/
theorem goesOn_readFraction (negative : Bool) (significand dropped : Nat) (p : Place) :
    GoesOn Prod.snd p (readFraction negative significand dropped p) := by
  rw [readFraction]
  dsimp only
  split
  · split <;> exact notices_faultAhead p _
  · exact (goesOn_readRaised _ _ _ (goesOn_finishFloat ..)).of_onward (onward_skipDigits p)

theorem goesOn_finishWhole (negative : Bool) (significand dropped : Nat) (p : Place) :
    GoesOn Prod.snd p (finishWhole negative significand dropped p) := by
  rw [finishWhole]
  split
  · exact goesOn_finishFloat ..
  · split
    · exact .refl p
    · split
      · exact .refl p
      · exact goesOn_finishFloat ..

/-- Reading a number goes on from behind its first digit. -/
theorem goesOn_readNumber_of_isDigit {c : Char} {rest : List Char} (hrest : p.rest = c :: rest)
    (hc : c.isDigit = true) (negative : Bool) :
    GoesOn Prod.snd p.next (readNumber negative p) := by
  simp only [readNumber, hrest, hc, Bool.not_true, Bool.false_eq_true, if_false]
  split
  · exact notices_faultAhead p.next _
  · rw [Place.skipDigits_of_isDigit hrest hc]
    refine GoesOn.of_onward (onward_skipDigits p.next) ?_
    split
    · exact (goesOn_readFraction ..).of_onward (onward_next _)
    · exact goesOn_readRaised _ _ _ (goesOn_finishWhole ..)

/-- Reading a number goes on, also where there is none. -/
theorem goesOn_readNumber (negative : Bool) (p : Place) :
    GoesOn Prod.snd p (readNumber negative p) := by
  cases hrest : p.rest with
  | nil =>
    rw [readNumber, hrest]
    exact notices_fault p _
  | cons c rest =>
    by_cases hc : c.isDigit = true
    · exact (goesOn_readNumber_of_isDigit hrest hc negative).of_onward (onward_next p)
    · simp only [readNumber, hrest, hc, Bool.not_false, if_true]
      exact notices_faultAhead p _

/-- Reading a code unit goes on. -/
theorem goesOn_readUnit (p : Place) : GoesOn Prod.snd p (readUnit p) := by
  rw [readUnit]
  dsimp only
  split
  · rename_i a b c d r hrest
    split
    · rename_i ha hb hc hd
      have hplain : ∀ x ∈ [a, b, c, d], Place.IsPlain x := by
        simp only [List.forall_mem_cons]
        exact ⟨Place.isPlain_of_hexValue? ha, Place.isPlain_of_hexValue? hb,
          Place.isPlain_of_hexValue? hc, Place.isPlain_of_hexValue? hd, by simp⟩
      obtain ⟨rest, line, column⟩ := p
      obtain rfl : rest = a :: b :: c :: d :: r := hrest
      exact Place.onward_plain hplain r line column
    · exact ⟨4, rfl⟩
  · exact ⟨4, rfl⟩

theorem goesOn_readExpected (expected : Char) (p : Place) :
    GoesOn id p (readExpected expected p) := by
  rw [readExpected]
  split
  · exact notices_fault p _
  · split
    · exact onward_next p
    · exact notices_faultAhead p _

/-- Reading the escape of one or two code units goes on. -/
theorem goesOn_readUnicode (care : Care) (p : Place) :
    GoesOn Prod.snd p (readUnicode care p) := by
  refine (goesOn_readUnit p).bind fun ⟨n, q⟩ => ?_
  dsimp only
  split
  · exact .refl q
  · split
    · exact notices_fault q _
    · split
      · exact .refl q
      · refine (goesOn_readExpected '\\' q).bind fun r => ?_
        refine (goesOn_readExpected 'u' r).bind fun s => ?_
        refine (goesOn_readUnit s).bind fun ⟨m, t⟩ => ?_
        dsimp only
        split
        · exact notices_fault t _
        · exact .refl t

/-- Reading what stands behind a backslash goes on. -/
theorem goesOn_readEscape (care : Care) (p : Place) : GoesOn Prod.snd p (readEscape care p) := by
  rw [readEscape]
  split
  · exact notices_fault p _
  · split
    · exact onward_next p
    split
    · exact onward_next p
    split
    · exact onward_next p
    split
    · exact onward_next p
    split
    · exact onward_next p
    split
    · exact onward_next p
    split
    · exact (goesOn_readUnicode care p.next).of_onward (onward_next p)
    · exact notices_faultAhead p _

/-- Reading the characters of a string goes on, however many there are. -/
theorem goesOn_readChars (care : Care) (fuel : Nat) (p : Place) :
    GoesOn Prod.snd p (readChars care fuel p) := by
  induction fuel generalizing p with
  | zero => exact notices_fault p _
  | succ fuel ih =>
    rw [readChars]
    split
    · exact notices_fault p _
    · split
      · exact onward_next p
      · split
        · refine GoesOn.bind ((goesOn_readEscape care p.next).of_onward (onward_next p)) ?_
          exact fun x => (ih x.2).bind fun y => .refl y.2
        · split
          · exact notices_faultAhead p _
          · exact ((ih p.next).of_onward (onward_next p)).bind fun x => .refl x.2

theorem goesOn_readText (care : Care) (p : Place) : GoesOn Prod.snd p (readText care p) :=
  (goesOn_readChars ..).map fun x => .refl x.2

/-- The place where the next item or the closing bracket stands. -/
def NextItem.place : NextItem → Place
  | .item p => p
  | .close p => p

/-- Looking for the next item goes on to it, or to the closing bracket. -/
theorem goesOn_nextItem (care : Care) (first : Bool) (p : Place) :
    GoesOn NextItem.place p (nextItem care first p) := by
  rw [nextItem]
  refine GoesOn.of_onward (onward_skipBlanks p) ?_
  split
  · exact notices_faultAhead _ _
  · split
    · exact .refl _
    · split
      · exact .refl _
      · split
        · refine GoesOn.of_onward ((onward_next _).trans (onward_skipBlanks _)) ?_
          dsimp only
          split
          · exact notices_faultAhead _ _
          · split
            · exact notices_faultAhead _ _
            · exact .refl _
        · exact notices_faultAhead _ _

/-- Reading items goes on when reading an item does. -/
theorem goesOn_readItems (care : Care) {item : Place → Except Fault (α × Place)}
    (hitem : ∀ p, GoesOn Prod.snd p (item p)) (fuel : Nat) (first : Bool) (p : Place) :
    GoesOn Prod.snd p (readItems care item fuel first p) := by
  induction fuel generalizing first p with
  | zero => exact notices_fault p _
  | succ fuel ih =>
    rw [readItems]
    refine (goesOn_nextItem care first p).bind fun next => ?_
    cases next with
    | close q => exact onward_next q
    | item q => exact (hitem q).bind fun x => (ih false x.2).bind fun xs => .refl xs.2

theorem goesOn_readColon (p : Place) : GoesOn id p (readColon p) := by
  rw [readColon]
  refine GoesOn.of_onward (onward_skipBlanks p) ?_
  split
  · exact notices_faultAhead _ _
  · split
    · exact onward_next _
    · exact notices_faultAhead _ _

/-- Reading members goes on when a step behind a key does. -/
theorem goesOn_readMembers (care : Care) {step : α → String → Place → Except Fault (α × Place)}
    (hstep : ∀ s key p, GoesOn Prod.snd p (step s key p)) (fuel : Nat) (first : Bool) (s : α)
    (p : Place) : GoesOn Prod.snd p (readMembers care step fuel first s p) := by
  induction fuel generalizing first s p with
  | zero => exact notices_fault p _
  | succ fuel ih =>
    have hmore (p : Place) : GoesOn Prod.snd p (readText care p.next >>= fun key =>
        step s key.1 key.2 >>= fun after => readMembers care step fuel false after.1 after.2) :=
      GoesOn.bind ((goesOn_readText care p.next).of_onward (onward_next p)) fun key =>
        (hstep s key.1 key.2).bind fun after => ih false after.1 after.2
    rw [readMembers]
    refine GoesOn.of_onward (onward_skipBlanks p) ?_
    dsimp only
    split
    · exact notices_faultAhead _ _
    · split
      · exact onward_next _
      · split
        · split
          · exact hmore _
          · exact notices_faultAhead _ _
        · split
          · refine GoesOn.of_onward ((onward_next _).trans (onward_skipBlanks _)) ?_
            split
            · exact notices_faultAhead _ _
            · split
              · exact hmore _
              · split <;> exact notices_faultAhead _ _
          · exact notices_faultAhead _ _

/-- Reading a value reads a byte before it tells a fault, so that nothing is told of a place before.
-/
theorem goesAhead_readValue (depth : Nat) (p : Place) :
    GoesAhead Prod.snd p (readValue .keep depth p) := by
  induction depth generalizing p with
  | zero => exact noticesAhead_faultAhead p _
  | succ depth ih =>
    have hword (cs : List Char) (v : Value) (p : Place) :
        GoesOn Prod.snd p ((readWord cs p).map fun q => (v, q)) :=
      (goesOn_readWord cs p).map fun q => .refl q
    have hmember (ms : Members) (key : String) (p : Place) : GoesOn Prod.snd p
        (readColon p >>= fun p => readValue .keep depth p >>= fun member =>
          pure (ms.insert key member.1, member.2)) :=
      (goesOn_readColon p).bind fun q => (ih q).goesOn.bind fun member => .refl member.2
    rw [readValue]
    refine GoesAhead.of_onward (onward_skipBlanks p) ?_
    dsimp only
    split
    · exact noticesAhead_faultAhead _ _
    · rename_i c rest hrest
      split
      · exact (hword _ _ _).ahead hrest
      split
      · exact (hword _ _ _).ahead hrest
      split
      · exact (hword _ _ _).ahead hrest
      split
      · exact GoesOn.ahead (GoesOn.map (goesOn_readNumber true _) fun x => .refl x.2) hrest
      split
      · rename_i hc
        have hread := goesOn_readNumber_of_isDigit hrest hc false
        exact GoesOn.ahead (GoesOn.map hread fun x => .refl x.2) hrest
      split
      · exact GoesOn.ahead (GoesOn.map (goesOn_readText _ _) fun text => .refl text.2) hrest
      split
      · split
        · exact noticesAhead_faultAhead _ _
        · refine GoesOn.ahead (GoesOn.map ?_ fun items => .refl items.2) hrest
          exact goesOn_readItems _ (fun q => (ih q).goesOn) _ _ _
      split
      · split
        · exact noticesAhead_faultAhead _ _
        · refine GoesOn.ahead (GoesOn.map ?_ fun members => .refl members.2) hrest
          exact goesOn_readMembers _ hmember _ _ _ _
      · exact noticesAhead_faultAhead _ _

/-- What stands behind a document is told with its first byte read. -/
theorem noticesAhead_of_readEnd (h : readEnd p = .error f) : p.NoticesAhead f := by
  rw [readEnd] at h
  split at h
  · cases h
  · obtain rfl := Except.error.inj h
    exact (onward_skipBlanks p).noticesAhead (noticesAhead_faultAhead _ _)

/-- A fault of a document is noticed from its start, with a byte read if there is one. -/
theorem noticesAhead_of_parse {s : String} (h : parse s = .error f) :
    (Place.ofText s).NoticesAhead f := by
  have hvalue := goesAhead_readValue depthLimit (Place.ofText s)
  rcases eq_error_or_exists_of_bind_eq_error h with h | ⟨⟨v, q⟩, hv, h⟩
  · rw [h] at hvalue
    exact hvalue
  · rw [hv] at hvalue
    rcases eq_error_or_exists_of_bind_eq_error h with h | ⟨_, -, h⟩
    · exact hvalue.noticesAhead (noticesAhead_of_readEnd h)
    · cases h

namespace Place

/-- Bytes lie on later lines for as many line feeds as are among them. -/
theorem afterBytes_fst (n : Nat) (p : Place) :
    (p.afterBytes n).1 = p.line + (Text.before n p.rest).count '\n' := by
  fun_induction afterBytes n p with
  | case1 p => cases h : p.rest <;> simp [Text.before]
  | case2 n p hrest => simp [hrest, Text.before]
  | case3 n p c rest hrest hsize =>
    -- The bytes end inside the character, which is then no line feed.
    have hfeed : c ≠ '\n' := by
      rintro rfl
      exact absurd hsize (by simp [Char.utf8Size])
    have hzero : n + 1 - c.utf8Size = 0 := by omega
    rw [hrest, Text.before, if_neg (by omega), hzero]
    cases rest <;> simp [Text.before, hfeed]
  | case4 n p c rest hrest hsize ih =>
    have hline : p.next.line = p.line + [c].count '\n' := by
      obtain ⟨_, line, column⟩ := p
      obtain rfl := hrest
      by_cases hfeed : c = '\n' <;> simp [next, hfeed]
    rw [ih, rest_next hrest, hline, hrest, Text.before, if_neg (by omega), Nat.add_assoc,
      ← List.count_append, List.singleton_append]

/-- There are no more bytes ahead than those of the text. -/
theorem afterBytes_of_le {n : Nat} (h : Text.bytesOf p.rest ≤ n) :
    p.afterBytes n = p.afterBytes (Text.bytesOf p.rest) := by
  generalize hcs : p.rest = cs at h ⊢
  induction cs generalizing p n with
  | nil =>
    rw [Text.bytesOf_nil, afterBytes_zero]
    cases n with
    | zero => exact afterBytes_zero p
    | succ n => rw [afterBytes, hcs]
  | cons c cs ih =>
    rw [Text.bytesOf_cons] at h ⊢
    obtain ⟨m, rfl⟩ := Nat.exists_eq_add_of_le h
    rw [Nat.add_assoc, afterBytes_next hcs, afterBytes_next hcs,
      ih (rest_next hcs) (Nat.le_add_right _ _)]

end Place

/-- A fault is noticed while a character of a document is read, given with its offset: the line and
column are those behind a byte of the character. -/
def Fault.NoticedIn (f : Fault) (s : String) (o : Nat × Char) : Prop :=
  ∃ n, o.1 < n ∧ n ≤ o.1 + o.2.utf8Size ∧ (f.line, f.column) = (Place.ofText s).afterBytes n

/-- A fault is noticed in a character of a document, unless the document is empty. -/
theorem exists_noticedIn_of_parse {s : String} (h : parse s = .error f) :
    (s = "" ∧ f.line = 1) ∨ ∃ o ∈ Text.withOffsets 0 s.toList, f.NoticedIn s o := by
  obtain ⟨n, hn, hf⟩ := noticesAhead_of_parse h
  by_cases hs : s.toList = []
  · have hline : f.line = ((Place.ofText s).afterBytes n).1 := congrArg Prod.fst hf
    rw [Place.afterBytes_fst, Place.ofText, hs] at hline
    refine Or.inl ⟨String.toList_eq_nil_iff.mp hs, ?_⟩
    cases n <;> exact hline
  · have hpos := hn.resolve_left hs
    obtain ⟨m, hm, hle, hf⟩ : ∃ m, 0 < m ∧ m ≤ Text.bytesOf s.toList ∧
        (f.line, f.column) = (Place.ofText s).afterBytes m := by
      by_cases hle : n ≤ Text.bytesOf s.toList
      · exact ⟨n, hpos, hle, hf⟩
      · have hend := Place.afterBytes_of_le (p := Place.ofText s) (Nat.le_of_not_le hle)
        exact ⟨_, Text.bytesOf_pos hs, Nat.le_refl _, hf.trans hend⟩
    obtain ⟨o, ho, hbyte⟩ := Text.exists_mem_withOffsets_of_le hm hle
    exact Or.inr ⟨o, ho, m, hbyte.1, hbyte.2, hf⟩

/-- A fault that is noticed in a character is on the line behind it. -/
theorem Fault.NoticedIn.line_eq {s : String} {o : Nat × Char} (h : f.NoticedIn s o)
    (ho : o ∈ Text.withOffsets 0 s.toList) :
    f.line = (Text.positionAt (o.1 + 1) s.toList).line := by
  obtain ⟨n, hlt, hle, hf⟩ := h
  have hline : f.line = ((Place.ofText s).afterBytes n).1 := congrArg Prod.fst hf
  have hbefore := Text.before_eq_of_mem_withOffsets ho hlt hle
  rw [hline, Place.afterBytes_fst, Text.positionAt_eq, ← hbefore]
  exact Nat.add_comm _ _

end ScriptModules.Json

import Mathlib.Data.List.TakeWhile
import ScriptModules.Json.Reader
import ScriptModules.Proofs.Json.Written
import ScriptModules.Proofs.Text.Split

/-!
# Numerals

A numeral of JSON is a run of digits without a leading zero, with a sign before it, and a fraction
and an exponent behind it. Reading a number takes a whole numeral and gives its value; only what
comes right behind it could make it longer.
-/

namespace ScriptModules.Json

/-- The end of a numeral that gives a power of ten. -/
structure Exponent where
  mark : Char
  sign? : Option Char
  digits : List Char
  deriving DecidableEq, Repr

/-- The parts of a numeral. -/
structure Numeral where
  negative : Bool
  whole : List Char
  /-- The digits behind a point. -/
  fraction? : Option (List Char)
  exponent? : Option Exponent
  deriving DecidableEq, Repr

/-- One digit or more. -/
def IsRun (ds : List Char) : Prop := ds ≠ [] ∧ ∀ c ∈ ds, c.isDigit = true

/-- The letter of an exponent. -/
def IsMark (c : Char) : Prop := c = 'e' ∨ c = 'E'

namespace Exponent

variable (e : Exponent)

/-- What stands behind the letter. -/
def tail : List Char := e.sign?.toList ++ e.digits

/-- An exponent with its letter. -/
def chars : List Char := e.mark :: e.tail

/-- How an exponent is written. -/
structure Valid : Prop where
  mark : IsMark e.mark
  sign : ∀ c ∈ e.sign?, c = '+' ∨ c = '-'
  digits : IsRun e.digits

end Exponent

namespace Numeral

variable (n : Numeral)

/-- What stands behind the whole part. -/
def tail : List Char :=
  (n.fraction?.map ('.' :: ·)).getD [] ++ (n.exponent?.map Exponent.chars).getD []

/-- A numeral without its sign. -/
def unsigned : List Char := n.whole ++ n.tail

/-- A numeral with its sign. -/
def chars : List Char := (if n.negative then ['-'] else []) ++ n.unsigned

/-- How a numeral is written. -/
structure Valid : Prop where
  whole : IsRun n.whole
  leadingZero : ∀ ds, n.whole = '0' :: ds → ds = []
  fraction : ∀ ds ∈ n.fraction?, IsRun ds
  exponent : ∀ e ∈ n.exponent?, e.Valid

/-- A numeral does not go on with a character. -/
structure EndsBefore (c : Char) : Prop where
  digit : c.isDigit = false
  mark : n.exponent? = none → ¬ IsMark c
  point : n.exponent? = none → n.fraction? = none → c ≠ '.'

end Numeral

/-- The double of a significand and a power of ten, unless it is too large. -/
def floatOf? (negative : Bool) (significand : Nat) (exponent : Int) : Option Number :=
  (scaled? significand exponent).map fun x => .float (x.withSign negative)

/-- The double of a significand and a power of ten that an exponent adds to. A very large exponent
makes zero, or more than any double. -/
def Exponent.value? (e : Exponent) (negative : Bool) (significand : Nat) (exponent : Int) :
    Option Number :=
  let down := e.sign? == some '-'
  let value := digitsValue e.digits
  if value < Nat.pow 2 31 then
    floatOf? negative significand (if down then exponent - value else exponent + value)
  else if significand != 0 && !down then none
  else some (.float (.zero negative))

/-- The value of digits without a fraction and an exponent, of which some were dropped. -/
def wholeOf? (negative : Bool) (significand dropped : Nat) : Option Number :=
  if dropped != 0 then floatOf? negative significand dropped
  else if !negative then some (.natural significand)
  else if significand != 0 && significand ≤ Nat.pow 2 63 then some (.negative significand)
  else floatOf? true significand 0

/-- A value that an exponent, if there is one, takes the place of. -/
def raisedOf? (exponent? : Option Exponent) (negative : Bool) (significand : Nat) (exponent : Int)
    (plain? : Option Number) : Option Number :=
  match exponent? with
  | none => plain?
  | some e => e.value? negative significand exponent

/-- The value of a numeral: an integer that fits stays one, and everything else is a double of the
digits that fit. There is none when it is too large. -/
def Numeral.value? (n : Numeral) : Option Number :=
  let (significand, count) := takeDigits 0 n.whole
  let dropped := n.whole.length - count
  match n.fraction? with
  | none =>
    raisedOf? n.exponent? n.negative significand dropped (wholeOf? n.negative significand dropped)
  | some ds =>
    let (significand, count) := takeDigits significand ds
    let exponent : Int := (dropped : Int) - count
    raisedOf? n.exponent? n.negative significand exponent
      (floatOf? n.negative significand exponent)

/-- A reader gives something and stops before a rest, or fails if there is nothing. -/
def Answers {α : Type} (read : Except Fault (α × Place)) (x? : Option α) (more : List Char) :
    Prop :=
  match x? with
  | some x => ∃ q, read = .ok (x, q) ∧ q.rest = more
  | none => ∃ fault, read = .error fault

/-- What a reader gives is what it answers, and it stops where the rest is. -/
theorem Answers.of_ok {α : Type} {read : Except Fault (α × Place)} {x? : Option α}
    {more : List Char} (h : Answers read x? more) {x : α} {q : Place} (hread : read = .ok (x, q)) :
    x? = some x ∧ q.rest = more := by
  subst hread
  cases x? with
  | none =>
    obtain ⟨_, h⟩ := h
    cases h
  | some y =>
    obtain ⟨q', h, hrest⟩ := h
    cases h
    exact ⟨rfl, hrest⟩

section

variable {negative down : Bool} {significand dropped : Nat} {exponent : Int} {p : Place}
  {ds more : List Char}

/-- No digit comes next. -/
def NoDigit (more : List Char) : Prop := ∀ c ∈ more.head?, c.isDigit = false

/-- Skipping digits leaves what stands behind them. -/
theorem Place.rest_skipDigits (p : Place) : p.skipDigits.rest = p.rest.dropWhile Char.isDigit :=
  Text.drop_length_takeWhile Char.isDigit p.rest

/-- A run of digits ends where no digit comes next. -/
theorem IsRun.takeWhile (h : IsRun ds) (hmore : NoDigit more) :
    (ds ++ more).takeWhile Char.isDigit = ds := by
  rw [Text.takeWhile_append_of_head hmore]
  exact List.takeWhile_eq_self_iff.mpr h.2

/-- A run of digits is skipped up to where it ends. -/
theorem IsRun.rest_skipDigits (h : IsRun ds) (hmore : NoDigit more) (hp : p.rest = ds ++ more) :
    p.skipDigits.rest = more := by
  rw [Place.rest_skipDigits, hp, Text.dropWhile_append_of_head hmore,
    List.dropWhile_eq_nil_iff.mpr h.2, List.nil_append]

/-- A run starts with a digit. -/
theorem IsRun.head (h : IsRun ds) : ∃ c rest, ds = c :: rest ∧ c.isDigit = true := by
  obtain ⟨c, rest, rfl⟩ := List.exists_cons_of_ne_nil h.1
  exact ⟨c, rest, rfl, h.2 c List.mem_cons_self⟩

/-- The digits ahead are a run, and no digit comes behind them. -/
theorem exists_run {c : Char} {r : List Char} (hp : p.rest = c :: r) (hc : c.isDigit = true) :
    ∃ ds more, IsRun ds ∧ p.rest = ds ++ more ∧ NoDigit more := by
  refine ⟨p.rest.takeWhile Char.isDigit, p.rest.dropWhile Char.isDigit, ⟨?_, ?_⟩,
    List.takeWhile_append_dropWhile.symm, ?_⟩
  · rw [hp, List.takeWhile_cons_of_pos hc]
    exact List.cons_ne_nil _ _
  · exact fun c hc => List.mem_takeWhile_imp hc
  · intro c hc
    have hhead := List.head?_dropWhile_not Char.isDigit p.rest
    rw [Option.mem_def.mp hc] at hhead
    exact hhead

/-- A float is finished without reading on. -/
theorem answers_finishFloat (negative : Bool) (significand : Nat) (exponent : Int) (p : Place) :
    Answers (finishFloat negative significand exponent p)
      (floatOf? negative significand exponent) p.rest := by
  unfold finishFloat floatOf?
  cases scaled? significand exponent with
  | none => exact ⟨_, rfl⟩
  | some x => exact ⟨p, rfl, rfl⟩

/-- A whole number is finished without reading on. -/
theorem answers_finishWhole (negative : Bool) (significand dropped : Nat) (p : Place) :
    Answers (finishWhole negative significand dropped p) (wholeOf? negative significand dropped)
      p.rest := by
  unfold finishWhole wholeOf?
  split
  · exact answers_finishFloat _ _ _ _
  · split
    · exact ⟨p, rfl, rfl⟩
    · split
      · exact ⟨p, rfl, rfl⟩
      · exact answers_finishFloat _ _ _ _

/-- The digits of an exponent are read as its power. -/
theorem answers_readPower {e : Exponent} (h : IsRun e.digits) (hp : p.rest = e.digits ++ more)
    (hmore : NoDigit more) :
    Answers (readPower negative significand exponent (e.sign? == some '-') p)
      (e.value? negative significand exponent) more := by
  have hskip := h.rest_skipDigits hmore hp
  have htake : p.rest.takeWhile Char.isDigit = e.digits := by rw [hp, h.takeWhile hmore]
  obtain ⟨c, rest, hdigits, hc⟩ := h.head
  have hcons : p.rest = c :: (rest ++ more) := by rw [hp, hdigits, List.cons_append]
  unfold readPower Exponent.value?
  rw [htake]
  simp only [hcons, hc, Bool.not_true, Bool.false_eq_true, if_false]
  split
  · exact hskip ▸ answers_finishFloat _ _ _ _
  · split
    · exact ⟨_, rfl⟩
    · exact ⟨_, rfl, hskip⟩

/-- Stepping over the sign of an exponent, if there is one. -/
theorem readSign_tail {e : Exponent} (h : e.Valid) (hp : p.rest = e.tail ++ more) :
    ∃ q, readSign p = (e.sign? == some '-', q) ∧ q.rest = e.digits ++ more := by
  obtain ⟨mark, sign?, digits⟩ := e
  have hp : p.rest = sign?.toList ++ digits ++ more := hp
  unfold readSign
  cases sign? with
  | none =>
    obtain ⟨c, rest, hdigits, hc⟩ := h.digits.head
    obtain rfl : digits = c :: rest := hdigits
    have hplus : c ≠ '+' := by rintro rfl; exact absurd hc (by decide)
    have hminus : c ≠ '-' := by rintro rfl; exact absurd hc (by decide)
    exact ⟨p, by rw [hp]; simp [hplus, hminus], hp⟩
  | some sign =>
    have hnext := Place.rest_next (p := p) (c := sign) hp
    rcases h.sign sign rfl with rfl | rfl
    · exact ⟨p.next, by rw [hp]; rfl, hnext⟩
    · exact ⟨p.next, by rw [hp]; rfl, hnext⟩

/-- An exponent is read as its power, after its sign. -/
theorem answers_readExponent {e : Exponent} (h : e.Valid) (hp : p.rest = e.tail ++ more)
    (hmore : NoDigit more) : Answers (readExponent negative significand exponent p)
      (e.value? negative significand exponent) more := by
  obtain ⟨q, hsign, hq⟩ := readSign_tail h hp
  rw [readExponent, hsign]
  exact answers_readPower h.digits hq hmore

/-- What is read as the rest of an exponent is one. -/
theorem exists_exponent {mark : Char} (hmark : IsMark mark) {r : Number × Place}
    (h : readExponent negative significand exponent p = .ok r) :
    ∃ (e : Exponent) (more : List Char),
      e.Valid ∧ mark :: p.rest = e.chars ++ more ∧ NoDigit more := by
  -- Digits stand where the sign, if there is one, is over.
  have hdigits : ∃ ds more, IsRun ds ∧ (readSign p).2.rest = ds ++ more ∧ NoDigit more := by
    rw [readExponent] at h
    dsimp only at h
    unfold readPower at h
    split at h
    · cases h
    · rename_i hrest
      split at h
      · cases h
      · rename_i hdigit
        exact exists_run hrest (by simpa using hdigit)
  have hsign : (∃ c, (c = '+' ∨ c = '-') ∧ p.rest = c :: (readSign p).2.rest) ∨
      (readSign p).2 = p := by
    unfold readSign
    split
    · rename_i hrest
      exact Or.inl ⟨'+', Or.inl rfl, by rw [Place.rest_next hrest, hrest]⟩
    · rename_i hrest
      exact Or.inl ⟨'-', Or.inr rfl, by rw [Place.rest_next hrest, hrest]⟩
    · exact Or.inr rfl
  obtain ⟨ds, more, hrun, hrest, hmore⟩ := hdigits
  rcases hsign with ⟨c, hc, hp⟩ | hp
  · refine ⟨⟨mark, some c, ds⟩, more, ⟨hmark, by rintro _ ⟨⟩; exact hc, hrun⟩, ?_, hmore⟩
    rw [hp, hrest]
    rfl
  · refine ⟨⟨mark, none, ds⟩, more, ⟨hmark, by rintro _ ⟨⟩, hrun⟩, ?_, hmore⟩
    rw [← hp, hrest]
    rfl

/-- The characters of an exponent, if there is one. -/
def raisedChars (exponent? : Option Exponent) : List Char := (exponent?.map Exponent.chars).getD []

/-- Behind the whole part stand the fraction and the exponent, if there are any. -/
theorem Numeral.tail_eq (n : Numeral) :
    n.tail = (n.fraction?.map ('.' :: ·)).getD [] ++ raisedChars n.exponent? := rfl

/-- A rest starts with an exponent, if there is one, and the numeral is over behind it. -/
structure Raised (exponent? : Option Exponent) (rest more : List Char) : Prop where
  valid : ∀ e ∈ exponent?, e.Valid
  rest : rest = raisedChars exponent? ++ more
  noDigit : NoDigit more
  noMark : exponent? = none → ∀ c ∈ more.head?, ¬ IsMark c

/-- A letter is no digit. -/
theorem IsMark.isDigit {c : Char} (h : IsMark c) : c.isDigit = false := by
  rcases h with rfl | rfl <;> rfl

/-- No digit comes where an exponent or the end of a numeral is. -/
theorem Raised.head {exponent? : Option Exponent} {rest : List Char}
    (h : Raised exponent? rest more) : NoDigit rest := by
  rw [h.rest]
  cases exponent? with
  | none => exact h.noDigit
  | some e =>
    rintro _ ⟨⟩
    exact (h.valid e rfl).mark.isDigit

/-- An exponent comes next, or the numeral is over. -/
theorem answers_readRaised {exponent? : Option Exponent} (h : Raised exponent? p.rest more)
    {finish : Except Fault (Number × Place)} {plain? : Option Number}
    (hfinish : p.rest = more → Answers finish plain? more) :
    Answers (readRaised negative significand exponent p finish)
      (raisedOf? exponent? negative significand exponent plain?) more := by
  unfold readRaised
  cases exponent? with
  | none =>
    have hp : p.rest = more := h.rest
    split
    · rename_i hrest
      exact absurd (Or.inl rfl) (h.noMark rfl 'e' (by rw [← hp, hrest]; rfl))
    · rename_i hrest
      exact absurd (Or.inr rfl) (h.noMark rfl 'E' (by rw [← hp, hrest]; rfl))
    · exact hfinish hp
  | some e =>
    have he := h.valid e rfl
    have hcons : p.rest = e.mark :: (e.tail ++ more) := h.rest
    have hread : Answers (readExponent negative significand exponent p.next)
        (e.value? negative significand exponent) more :=
      answers_readExponent he (Place.rest_next hcons) h.noDigit
    rcases he.mark with hmark | hmark
    · rw [hcons, hmark]
      exact hread
    · rw [hcons, hmark]
      exact hread

/-- What is read behind digits starts with an exponent, or the numeral is over. -/
theorem exists_raised {finish : Except Fault (Number × Place)} {r : Number × Place}
    (h : readRaised negative significand exponent p finish = .ok r) (hp : NoDigit p.rest) :
    ∃ exponent? more, Raised exponent? p.rest more := by
  have hraised {mark : Char} {tail : List Char} (hmark : IsMark mark)
      (hrest : p.rest = mark :: tail)
      (h : readExponent negative significand exponent p.next = .ok r) :
      ∃ exponent? more, Raised exponent? p.rest more := by
    obtain ⟨e, more, he, hchars, hmore⟩ := exists_exponent hmark h
    rw [Place.rest_next hrest, ← hrest] at hchars
    exact ⟨some e, more, ⟨by rintro _ ⟨⟩; exact he, hchars, hmore, nofun⟩⟩
  unfold readRaised at h
  split at h
  · exact hraised (Or.inl rfl) ‹_› h
  · exact hraised (Or.inr rfl) ‹_› h
  · rename_i hnot hnot'
    refine ⟨none, p.rest, ⟨nofun, rfl, hp, fun _ c hc hmark => ?_⟩⟩
    obtain ⟨tail, htail⟩ := List.head?_eq_some_iff.mp hc
    rcases hmark with rfl | rfl
    · exact hnot _ htail
    · exact hnot' _ htail

/-- A fraction is read with the exponent behind it, as far as its digits fit. -/
theorem answers_readFraction {exponent? : Option Exponent} {rest : List Char}
    (h : Raised exponent? rest more) (hds : IsRun ds) (hp : p.rest = ds ++ rest) :
    Answers (readFraction negative significand dropped p)
      (let (significand, count) := takeDigits significand ds
      let exponent : Int := (dropped : Int) - count
      raisedOf? exponent? negative significand exponent (floatOf? negative significand exponent))
      more := by
  have hskip := hds.rest_skipDigits h.head hp
  have htake : p.rest.takeWhile Char.isDigit = ds := by rw [hp, hds.takeWhile h.head]
  have hempty : ds.isEmpty = false := List.isEmpty_eq_false_iff.mpr hds.1
  unfold readFraction
  rw [htake]
  simp only [hempty, Bool.false_eq_true, if_false]
  refine answers_readRaised (hskip ▸ h) fun hmore => ?_
  rw [← hmore]
  exact answers_finishFloat _ _ _ _

/-- What is read behind a point is a run of digits, with an exponent or none. -/
theorem exists_fraction {r : Number × Place}
    (h : readFraction negative significand dropped p = .ok r) :
    ∃ ds rest exponent? more, IsRun ds ∧ p.rest = ds ++ rest ∧ Raised exponent? rest more := by
  unfold readFraction at h
  dsimp only at h
  split at h
  · split at h <;> cases h
  · rename_i hempty
    obtain ⟨c, others, hothers⟩ := List.exists_cons_of_ne_nil
      (fun hnil => hempty (List.isEmpty_iff.mpr hnil))
    obtain ⟨hrest, hc⟩ : (∃ tail, p.rest = c :: tail) ∧ c.isDigit = true := by
      have hmem : c ∈ p.rest.takeWhile Char.isDigit := by rw [hothers]; exact List.mem_cons_self
      have happend := List.takeWhile_append_dropWhile (p := Char.isDigit) (l := p.rest)
      rw [hothers] at happend
      exact ⟨⟨_, happend.symm⟩, List.mem_takeWhile_imp hmem⟩
    obtain ⟨tail, hrest⟩ := hrest
    obtain ⟨ds, rest, hds, hp, hdigit⟩ := exists_run hrest hc
    have hskip := hds.rest_skipDigits hdigit hp
    obtain ⟨exponent?, more, hraised⟩ := exists_raised h (hskip ▸ hdigit)
    exact ⟨ds, rest, exponent?, more, hds, hp, hskip ▸ hraised⟩

/-- What comes behind a numeral is none of what would make it longer. -/
theorem Numeral.Valid.raised {n : Numeral} (h : n.Valid)
    (hmore : ∀ c ∈ more.head?, n.EndsBefore c) :
    Raised n.exponent? (raisedChars n.exponent? ++ more) more where
  valid := h.exponent
  rest := rfl
  noDigit c hc := (hmore c hc).digit
  noMark hnone c hc := (hmore c hc).mark hnone

/-- Reading a number, after its sign, gives the value of the numeral ahead. -/
theorem answers_readNumber {n : Numeral} (h : n.Valid) (hp : p.rest = n.unsigned ++ more)
    (hmore : ∀ c ∈ more.head?, n.EndsBefore c) :
    Answers (readNumber n.negative p) n.value? more := by
  have hraised := h.raised hmore
  have hnext : NoDigit (n.tail ++ more) := by
    rw [n.tail_eq, List.append_assoc]
    cases n.fraction? with
    | none => exact hraised.head
    | some ds =>
      rintro _ ⟨⟩
      rfl
  rw [Numeral.unsigned, List.append_assoc] at hp
  have hskip := h.whole.rest_skipDigits hnext hp
  have htake : p.rest.takeWhile Char.isDigit = n.whole := by rw [hp, h.whole.takeWhile hnext]
  obtain ⟨c, rest, hwhole, hc⟩ := h.whole.head
  have hcons : p.rest = c :: (rest ++ (n.tail ++ more)) := by rw [hp, hwhole, List.cons_append]
  have hzero : (c == '0' && (rest ++ (n.tail ++ more)).head?.any Char.isDigit) = false := by
    by_cases hc : c = '0'
    · obtain rfl : rest = [] := h.leadingZero rest (by rw [hwhole, hc])
      cases hhead : ([] ++ (n.tail ++ more)).head? with
      | none => simp
      | some d => simp [hnext d hhead]
    · simp [hc]
  unfold readNumber Numeral.value?
  rw [htake]
  simp only [hcons, hc, hzero, Bool.not_true, Bool.false_eq_true, if_false]
  rw [n.tail_eq, List.append_assoc] at hskip
  cases hfraction : n.fraction? with
  | some ds =>
    rw [hfraction] at hskip
    have hcons : p.skipDigits.rest = '.' :: (ds ++ (raisedChars n.exponent? ++ more)) := hskip
    simp only [hcons]
    exact answers_readFraction hraised (h.fraction ds hfraction) (Place.rest_next hcons)
  | none =>
    rw [hfraction] at hskip
    have hskip : p.skipDigits.rest = raisedChars n.exponent? ++ more := hskip
    split
    · -- No point stands where there is no fraction.
      rename_i hrest
      rw [hskip] at hrest
      cases hexponent : n.exponent? with
      | none =>
        rw [hexponent] at hrest
        have hhead : '.' ∈ more.head? := by rw [show more = _ from hrest]; rfl
        exact absurd rfl ((hmore '.' hhead).point hexponent hfraction)
      | some e =>
        rw [hexponent] at hrest
        have hdot : e.mark = '.' := List.head_eq_of_cons_eq hrest
        rcases (h.exponent e hexponent).mark with hmark | hmark <;> rw [hdot] at hmark <;>
          cases hmark
    · refine answers_readRaised (hskip ▸ hraised) fun hmore => ?_
      rw [← hmore]
      exact answers_finishWhole _ _ _ _

/-- A number that is read, after its sign, has a numeral. -/
theorem exists_numeral {r : Number × Place} (h : readNumber negative p = .ok r) :
    ∃ (n : Numeral) (more : List Char), n.negative = negative ∧ n.Valid ∧
      p.rest = n.unsigned ++ more ∧ ∀ c ∈ more.head?, n.EndsBefore c := by
  unfold readNumber at h
  split at h
  · cases h
  rename_i c rest hrest
  split at h
  · cases h
  rename_i hc
  split at h
  · cases h
  rename_i hzero
  obtain ⟨ds, tail, hds, hp, htail⟩ := exists_run hrest (by simpa using hc)
  have hskip := hds.rest_skipDigits htail hp
  have hleading : ∀ others, ds = '0' :: others → others = [] := by
    rintro others rfl
    rw [hrest, List.cons_append, List.cons.injEq] at hp
    obtain ⟨rfl, rfl⟩ := hp
    cases others with
    | nil => rfl
    | cons d others => simp [hds.2 d (by simp)] at hzero
  dsimp only at h
  split at h
  · rename_i hpoint
    obtain ⟨fraction, rest, exponent?, more, hfraction, hbehind, hraised⟩ := exists_fraction h
    refine ⟨⟨negative, ds, some fraction, exponent?⟩, more, rfl,
      ⟨hds, hleading, by rintro _ ⟨⟩; exact hfraction, hraised.valid⟩, ?_, fun c hc =>
        ⟨hraised.noDigit c hc, fun hnone => hraised.noMark hnone c hc, by simp⟩⟩
    rw [hp, ← hskip, hpoint, ← Place.rest_next hpoint, hbehind, hraised.rest]
    simp [Numeral.unsigned, Numeral.tail_eq]
  · rename_i hpoint
    obtain ⟨exponent?, more, hraised⟩ := exists_raised h (hskip ▸ htail)
    refine ⟨⟨negative, ds, none, exponent?⟩, more, rfl,
      ⟨hds, hleading, by simp, hraised.valid⟩, ?_, fun c hc =>
        ⟨hraised.noDigit c hc, fun hnone => hraised.noMark hnone c hc, ?_⟩⟩
    · rw [hp, ← hskip, hraised.rest]
      simp [Numeral.unsigned, Numeral.tail_eq]
    · rintro hnone - rfl
      obtain ⟨tail, htail⟩ := List.head?_eq_some_iff.mp hc
      rw [show exponent? = none from hnone] at hraised
      exact hpoint tail (hraised.rest.trans htail)

end

end ScriptModules.Json

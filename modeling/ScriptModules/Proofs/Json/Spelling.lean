import ScriptModules.Proofs.Except
import ScriptModules.Proofs.Json.Written

/-!
# Spelled strings

A character of a string is spelled as it is or by an escape; the escapes of a surrogate pair make
one character together. Reading a string takes a spelling up to the quote behind it, and gives the
characters that are spelled.
-/

namespace ScriptModules.Json

/-- The letters of the short escapes, and the characters that they stand for. -/
def shortEscapes : List (Char × Char) :=
  [('\x22', '\x22'), ('\\', '\\'), ('/', '/'), ('b', Char.ofNat 8), ('f', Char.ofNat 12),
    ('n', '\n'), ('r', '\r'), ('t', '\t')]

/-- The value of the four digits of a code unit. -/
def unitValue? : List Char → Option Nat
  | [a, b, c, d] => do
    let a ← hexValue? a
    let b ← hexValue? b
    let c ← hexValue? c
    let d ← hexValue? d
    return a * 4096 + b * 256 + c * 16 + d
  | _ => none

/-- The first code unit of a surrogate pair. -/
def IsHigh (n : Nat) : Prop := 0xD800 ≤ n ∧ n ≤ 0xDBFF

/-- The second code unit of a surrogate pair. -/
def IsLow (n : Nat) : Prop := 0xDC00 ≤ n ∧ n ≤ 0xDFFF

/-- What stands behind a backslash, and the character that it stands for. -/
inductive Escapes : List Char → Char → Prop
  | short {e c : Char} (h : (e, c) ∈ shortEscapes) : Escapes [e] c
  | unit {ds : List Char} {n : Nat} (h : unitValue? ds = some n) (hhigh : ¬ IsHigh n)
    (hlow : ¬ IsLow n) : Escapes ('u' :: ds) (Char.ofNat n)
  | pair {ds es : List Char} {m n : Nat} (hm : unitValue? ds = some m) (hhigh : IsHigh m)
    (hn : unitValue? es = some n) (hlow : IsLow n) :
    Escapes ('u' :: ds ++ '\\' :: 'u' :: es)
      (Char.ofNat ((m - 0xD800) * 0x400 + (n - 0xDC00) + 0x10000))

/-- What stands between the quotes of a string, and the characters of the string. -/
inductive Spells : List Char → List Char → Prop
  | nil : Spells [] []
  | plain {c : Char} {raw cs : List Char} (hquote : c ≠ '\x22') (hslash : c ≠ '\\')
    (hcontrol : ¬ c.toNat < 0x20) (h : Spells raw cs) : Spells (c :: raw) (c :: cs)
  | escape {e raw cs : List Char} {c : Char} (he : Escapes e c) (h : Spells raw cs) :
    Spells ('\\' :: (e ++ raw)) (c :: cs)

/-- A text without a quote but behind a backslash. -/
inductive Quoted : List Char → Prop
  | nil : Quoted []
  | plain {c : Char} {raw : List Char} (hquote : c ≠ '\x22') (hslash : c ≠ '\\')
    (h : Quoted raw) : Quoted (c :: raw)
  | escape (e : Char) {raw : List Char} (h : Quoted raw) : Quoted ('\\' :: e :: raw)

/-- A code unit is spelled with four digits. -/
theorem exists_of_unitValue? {ds : List Char} {n : Nat} (h : unitValue? ds = some n) :
    ∃ a b c d, ds = [a, b, c, d] ∧ ∀ x ∈ ds, (hexValue? x).isSome := by
  unfold unitValue? at h
  split at h
  · rename_i a b c d
    refine ⟨a, b, c, d, rfl, ?_⟩
    simp only [Option.bind_eq_bind, Option.bind_eq_some_iff] at h
    obtain ⟨_, ha, _, hb, _, hc, _, hd, -⟩ := h
    simp [ha, hb, hc, hd]
  · cases h

/-- Spellings may stand one after the other. -/
theorem Quoted.append {raw raw' : List Char} (h : Quoted raw) (h' : Quoted raw') :
    Quoted (raw ++ raw') := by
  induction h with
  | nil => exact h'
  | plain hquote hslash _ ih => exact .plain hquote hslash ih
  | escape e _ ih => exact .escape e ih

/-- The digits of a code unit hold no quote and no backslash. -/
theorem Quoted.of_digits {ds : List Char} (h : ∀ x ∈ ds, (hexValue? x).isSome) : Quoted ds := by
  induction ds with
  | nil => exact .nil
  | cons d ds ih =>
    obtain ⟨hd, hds⟩ := List.forall_mem_cons.mp h
    refine .plain ?_ ?_ (ih hds)
    · rintro rfl
      exact absurd hd (by decide)
    · rintro rfl
      exact absurd hd (by decide)

/-- An escape goes on behind its first character without a quote. -/
theorem Escapes.quoted {e : List Char} {c : Char} (h : Escapes e c) : Quoted ('\\' :: e) := by
  cases h with
  | short => exact .escape _ .nil
  | unit h =>
    obtain ⟨_, _, _, _, -, hds⟩ := exists_of_unitValue? h
    exact .escape 'u' (.of_digits hds)
  | pair hm _ hn =>
    obtain ⟨_, _, _, _, -, hds⟩ := exists_of_unitValue? hm
    obtain ⟨_, _, _, _, -, hes⟩ := exists_of_unitValue? hn
    exact .escape 'u' ((Quoted.of_digits hds).append (.escape 'u' (.of_digits hes)))

/-- What spells characters holds no quote but behind a backslash. -/
theorem Spells.quoted {raw cs : List Char} (h : Spells raw cs) : Quoted raw := by
  induction h with
  | nil => exact .nil
  | plain hquote hslash _ _ ih => exact .plain hquote hslash ih
  | escape he _ ih => exact he.quoted.append ih

variable {p q : Place} {more : List Char}

/-- Behind the first character is the next place. -/
theorem Place.rest_eq_cons {c : Char} {r : List Char} (h : p.rest = c :: r) :
    p.rest = c :: p.next.rest := by
  rw [Place.rest_next h, h]

/-- The four digits of a code unit are read as its value. -/
theorem readUnit_of_value {ds : List Char} {n : Nat} (h : unitValue? ds = some n)
    (hp : p.rest = ds ++ more) : ∃ q, readUnit p = .ok (n, q) ∧ q.rest = more := by
  obtain ⟨a, b, c, d, rfl, -⟩ := exists_of_unitValue? h
  simp only [unitValue?, Option.bind_eq_bind, Option.bind_eq_some_iff] at h
  obtain ⟨_, ha, _, hb, _, hc, _, hd, h⟩ := h
  obtain rfl := Option.some.inj h
  exact ⟨⟨more, p.line, p.column + 4⟩, by simp [readUnit, hp, ha, hb, hc, hd], rfl⟩

/-- A code unit that is read was spelled with its digits. -/
theorem exists_of_readUnit {n : Nat} (h : readUnit p = .ok (n, q)) :
    ∃ ds, unitValue? ds = some n ∧ p.rest = ds ++ q.rest := by
  unfold readUnit at h
  dsimp only at h
  split at h
  · rename_i a b c d r hrest
    split at h
    · rename_i ha hb hc hd
      obtain ⟨rfl, rfl⟩ := Prod.mk.inj (Except.ok.inj h)
      exact ⟨[a, b, c, d], by simp [unitValue?, ha, hb, hc, hd], hrest⟩
    · cases h
  · cases h

/-- The expected character is stepped over. -/
theorem readExpected_of_rest {c : Char} (hp : p.rest = c :: more) :
    readExpected c p = .ok p.next := by
  simp [readExpected, hp]

/-- What was expected and read stood there. -/
theorem rest_of_readExpected {c : Char} (h : readExpected c p = .ok q) : p.rest = c :: q.rest := by
  unfold readExpected at h
  split at h
  · cases h
  · rename_i hrest
    split at h
    · rename_i hc
      obtain rfl := Except.ok.inj h
      rw [← beq_iff_eq.mp hc, Place.rest_eq_cons hrest]
    · cases h

/-- The escape of a code unit that is no half of a pair is read as one character. -/
theorem readUnicode_of_unit {ds : List Char} {n : Nat} (h : unitValue? ds = some n)
    (hhigh : ¬ IsHigh n) (hlow : ¬ IsLow n) (hp : p.rest = ds ++ more) :
    ∃ q, readUnicode .keep p = .ok ([Char.ofNat n], q) ∧ q.rest = more := by
  obtain ⟨q, hq, hrest⟩ := readUnit_of_value h hp
  have hlow : (decide (0xDC00 ≤ n) && decide (n ≤ 0xDFFF)) = false := by
    simpa [IsLow] using hlow
  have hhigh : (decide (n < 0xD800) || decide (n > 0xDBFF)) = true := by
    simp only [IsHigh] at hhigh
    simp only [Bool.or_eq_true, decide_eq_true_eq]
    omega
  have hkeep : (Care.keep == Care.skim) = false := rfl
  refine ⟨q, ?_, hrest⟩
  simp only [readUnicode, hq, bind, Except.bind, pure, Except.pure, hkeep, hlow, hhigh, if_true,
    Bool.false_eq_true, if_false]

/-- The escapes of the two halves of a pair are read as one character. -/
theorem readUnicode_of_pair {ds es : List Char} {m n : Nat} (hm : unitValue? ds = some m)
    (hhigh : IsHigh m) (hn : unitValue? es = some n) (hlow : IsLow n)
    (hp : p.rest = ds ++ '\\' :: 'u' :: (es ++ more)) :
    ∃ q, readUnicode .keep p =
      .ok ([Char.ofNat ((m - 0xD800) * 0x400 + (n - 0xDC00) + 0x10000)], q) ∧ q.rest = more := by
  obtain ⟨q, hq, hrest⟩ := readUnit_of_value hm hp
  have hnext := Place.rest_next hrest
  obtain ⟨r, hr, hmore⟩ := readUnit_of_value hn (Place.rest_next hnext)
  obtain ⟨hlow, hlow'⟩ := hlow
  obtain ⟨hhigh, hhigh'⟩ := hhigh
  have hnotLow : (decide (0xDC00 ≤ m) && decide (m ≤ 0xDFFF)) = false := by
    simp only [Bool.and_eq_false_iff, decide_eq_false_iff_not]
    omega
  have hpair : (decide (m < 0xD800) || decide (m > 0xDBFF)) = false := by
    simp only [Bool.or_eq_false_iff, decide_eq_false_iff_not]
    omega
  have hsecond : (decide (n < 0xDC00) || decide (n > 0xDFFF)) = false := by
    simp only [Bool.or_eq_false_iff, decide_eq_false_iff_not]
    omega
  have hkeep : (Care.keep == Care.skim) = false := rfl
  refine ⟨r, ?_, hmore⟩
  simp only [readUnicode, hq, readExpected_of_rest hrest, readExpected_of_rest hnext, hr, bind,
    Except.bind, pure, Except.pure, hkeep, hnotLow, hpair, hsecond, Bool.false_eq_true, if_false]

/-- An escape of code units that is read stands for a character. -/
theorem exists_of_readUnicode {cs : List Char} (h : readUnicode .keep p = .ok (cs, q)) :
    ∃ e c, Escapes ('u' :: e) c ∧ cs = [c] ∧ p.rest = e ++ q.rest := by
  obtain ⟨⟨m, p'⟩, hm, h⟩ := exists_of_bind_eq_ok h
  obtain ⟨ds, hds, hp⟩ := exists_of_readUnit hm
  have hkeep : (Care.keep == Care.skim) = false := rfl
  simp only [hkeep, Bool.false_eq_true, if_false] at h
  split at h
  · cases h
  rename_i hnotLow
  simp only [Bool.and_eq_true, decide_eq_true_eq] at hnotLow
  split at h
  · rename_i hnotHigh
    simp only [Bool.or_eq_true, decide_eq_true_eq] at hnotHigh
    obtain ⟨rfl, rfl⟩ := Prod.mk.inj (Except.ok.inj h)
    exact ⟨ds, _, .unit hds (fun hhigh => by unfold IsHigh at hhigh; omega) hnotLow, rfl, hp⟩
  · rename_i hhigh
    simp only [Bool.or_eq_true, decide_eq_true_eq, not_or] at hhigh
    obtain ⟨p₁, h₁, h⟩ := exists_of_bind_eq_ok h
    obtain ⟨p₂, h₂, h⟩ := exists_of_bind_eq_ok h
    obtain ⟨⟨n, p₃⟩, hn, h⟩ := exists_of_bind_eq_ok h
    obtain ⟨es, hes, hrest⟩ := exists_of_readUnit hn
    dsimp only at h
    split at h
    · cases h
    · rename_i hlow
      simp only [Bool.or_eq_true, decide_eq_true_eq, not_or] at hlow
      obtain ⟨rfl, rfl⟩ := Prod.mk.inj (Except.ok.inj h)
      refine ⟨ds ++ '\\' :: 'u' :: es, _,
        .pair hds ⟨by omega, by omega⟩ hes ⟨by omega, by omega⟩, rfl, ?_⟩
      rw [hp, rest_of_readExpected h₁, rest_of_readExpected h₂, hrest]
      simp

/-- An escape is read as the character that it stands for. -/
theorem readEscape_of_escapes {e : List Char} {c : Char} (h : Escapes e c)
    (hp : p.rest = e ++ more) :
    ∃ q, readEscape .keep p = .ok ([c], q) ∧ q.rest = more := by
  cases h with
  | @short letter _ h =>
    refine ⟨p.next, ?_, Place.rest_next hp⟩
    have hp : p.rest = letter :: more := hp
    simp only [shortEscapes, List.mem_cons, Prod.mk.injEq, List.not_mem_nil, or_false] at h
    rcases h with ⟨rfl, rfl⟩ | ⟨rfl, rfl⟩ | ⟨rfl, rfl⟩ | ⟨rfl, rfl⟩ | ⟨rfl, rfl⟩ | ⟨rfl, rfl⟩ |
      ⟨rfl, rfl⟩ | ⟨rfl, rfl⟩ <;> simp [readEscape, hp]
  | unit h hhigh hlow =>
    obtain ⟨q, hq, hrest⟩ := readUnicode_of_unit h hhigh hlow (Place.rest_next hp)
    exact ⟨q, by simp [readEscape, hp, hq], hrest⟩
  | pair hm hhigh hn hlow =>
    rw [List.append_assoc] at hp
    obtain ⟨q, hq, hrest⟩ := readUnicode_of_pair hm hhigh hn hlow (Place.rest_next hp)
    exact ⟨q, by simp [readEscape, hp, hq], hrest⟩

/-- An escape that is read stands for a character. -/
theorem exists_of_readEscape {cs : List Char} (h : readEscape .keep p = .ok (cs, q)) :
    ∃ e c, Escapes e c ∧ cs = [c] ∧ p.rest = e ++ q.rest := by
  unfold readEscape at h
  split at h
  · cases h
  rename_i letter _ hrest
  have hnext := Place.rest_eq_cons hrest
  have hshort {c : Char} (hc : (letter, c) ∈ shortEscapes)
      (h : Except.ok ([c], p.next) = (.ok (cs, q) : Except Fault (List Char × Place))) :
      ∃ e c, Escapes e c ∧ cs = [c] ∧ p.rest = e ++ q.rest := by
    obtain ⟨rfl, rfl⟩ := Prod.mk.inj (Except.ok.inj h)
    exact ⟨[letter], c, .short hc, rfl, hnext⟩
  split at h
  · rename_i hc
    refine hshort ?_ h
    simp only [Bool.or_eq_true, beq_iff_eq] at hc
    rcases hc with (rfl | rfl) | rfl <;> decide
  iterate 5
    split at h
    · rename_i hc
      obtain rfl := beq_iff_eq.mp hc
      exact hshort (by decide) h
  split at h
  · rename_i hc
    obtain rfl := beq_iff_eq.mp hc
    obtain ⟨e, c, he, rfl, hp⟩ := exists_of_readUnicode h
    exact ⟨'u' :: e, c, he, rfl, by rw [hnext, hp, List.cons_append]⟩
  · cases h

/-- Reading characters gives what a spelling stands for, up to the quote behind it. -/
theorem readChars_of_spells {raw cs : List Char} (h : Spells raw cs)
    (hp : p.rest = raw ++ '\x22' :: more) {fuel : Nat} (hfuel : cs.length < fuel) :
    ∃ q, readChars .keep fuel p = .ok (cs, q) ∧ q.rest = more := by
  induction h generalizing p fuel with
  | nil =>
    obtain ⟨fuel, rfl⟩ := Nat.exists_eq_add_of_lt hfuel
    have hp : p.rest = '\x22' :: more := hp
    exact ⟨p.next, by simp [readChars, hp], Place.rest_next hp⟩
  | @plain c raw cs hquote hslash hcontrol h ih =>
    obtain _ | fuel := fuel
    · cases hfuel
    obtain ⟨q, hq, hrest⟩ := ih (Place.rest_next hp) (Nat.lt_of_succ_lt_succ hfuel)
    refine ⟨q, ?_, hrest⟩
    have hcontrol : 0x20 ≤ c.toNat := Nat.le_of_not_lt hcontrol
    simp [readChars, hp, hquote, hslash, hcontrol, hq, bind, Except.bind, pure, Except.pure]
  | @escape e raw cs c he h ih =>
    obtain _ | fuel := fuel
    · cases hfuel
    have hnext : p.next.rest = e ++ (raw ++ '\x22' :: more) := by
      rw [← List.append_assoc]
      exact Place.rest_next hp
    obtain ⟨q, hq, hrest⟩ := readEscape_of_escapes he hnext
    obtain ⟨r, hr, hmore⟩ := ih hrest (Nat.lt_of_succ_lt_succ hfuel)
    refine ⟨r, ?_, hmore⟩
    simp [readChars, hp, hq, hr, bind, Except.bind, pure, Except.pure]

/-- The characters that are read up to a quote were spelled before it. -/
theorem exists_of_readChars {cs : List Char} {fuel : Nat}
    (h : readChars .keep fuel p = .ok (cs, q)) :
    ∃ raw, Spells raw cs ∧ p.rest = raw ++ '\x22' :: q.rest := by
  induction fuel generalizing p cs with
  | zero => cases h
  | succ fuel ih =>
    unfold readChars at h
    split at h
    · cases h
    rename_i c _ hrest
    have hnext := Place.rest_eq_cons hrest
    split at h
    · rename_i hc
      obtain rfl := beq_iff_eq.mp hc
      obtain ⟨rfl, rfl⟩ := Prod.mk.inj (Except.ok.inj h)
      exact ⟨[], .nil, hnext⟩
    rename_i hquote
    split at h
    · rename_i hc
      obtain rfl := beq_iff_eq.mp hc
      obtain ⟨⟨es, p'⟩, he, h⟩ := exists_of_bind_eq_ok h
      obtain ⟨⟨others, p''⟩, hothers, h⟩ := exists_of_bind_eq_ok h
      obtain ⟨rfl, rfl⟩ := Prod.mk.inj (Except.ok.inj h)
      obtain ⟨e, d, hd, rfl, hp⟩ := exists_of_readEscape he
      obtain ⟨raw, hraw, hp'⟩ := ih hothers
      exact ⟨'\\' :: (e ++ raw), .escape hd hraw, by rw [hnext, hp, hp']; simp⟩
    rename_i hslash
    split at h
    · cases h
    rename_i hcontrol
    obtain ⟨⟨others, p'⟩, hothers, h⟩ := exists_of_bind_eq_ok h
    obtain ⟨rfl, rfl⟩ := Prod.mk.inj (Except.ok.inj h)
    obtain ⟨raw, hraw, hp⟩ := ih hothers
    exact ⟨c :: raw, .plain (by simpa using hquote) (by simpa using hslash) hcontrol hraw,
      by rw [hnext, hp, List.cons_append]⟩

/-- There are no more characters than are written to spell them. -/
theorem Spells.length_le {raw cs : List Char} (h : Spells raw cs) : cs.length ≤ raw.length := by
  induction h with
  | nil => exact Nat.le_refl 0
  | plain _ _ _ _ ih => exact Nat.succ_le_succ ih
  | escape _ _ ih =>
    simp only [List.length_cons, List.length_append]
    omega

/-- Reading a string, after its opening quote, gives what its spelling stands for. -/
theorem readText_of_spells {raw cs : List Char} (h : Spells raw cs)
    (hp : p.rest = raw ++ '\x22' :: more) :
    ∃ q, readText .keep p = .ok (String.ofList cs, q) ∧ q.rest = more := by
  have hfuel : cs.length < p.rest.length + 1 := by
    have := h.length_le
    rw [hp, List.length_append]
    omega
  obtain ⟨q, hq, hrest⟩ := readChars_of_spells h hp hfuel
  exact ⟨q, by rw [readText, hq]; rfl, hrest⟩

/-- A string that is read, after its opening quote, is spelled. -/
theorem exists_of_readText {s : String} (h : readText .keep p = .ok (s, q)) :
    ∃ raw cs, Spells raw cs ∧ s = String.ofList cs ∧ p.rest = raw ++ '\x22' :: q.rest := by
  obtain ⟨⟨cs, q'⟩, hcs, h⟩ := exists_of_map_eq_ok h
  obtain ⟨rfl, rfl⟩ := Prod.mk.inj h
  obtain ⟨raw, hraw, hp⟩ := exists_of_readChars hcs
  exact ⟨raw, cs, hraw, rfl, hp⟩

end ScriptModules.Json

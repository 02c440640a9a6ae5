import Mathlib.Algebra.Group.Int.Defs
import Mathlib.Algebra.Group.Nat.Defs
import Mathlib.Data.List.Forall2
import ScriptModules.Proofs.Except
import ScriptModules.Proofs.Text.Base64
import ScriptModules.SourceMap.Mappings

/-!
# The integers that digits denote

The digits of a quantity denote an integer, however many they are. Reading takes up to thirteen of
them into a word of 64 bits, so a thirteenth digit can leave the word. An integer below 2 ^ 62 in
size is read as it is. Larger ones come out reduced to that range, with their sign, and are not
refused unless they have a fourteenth digit.
-/

namespace ScriptModules.SourceMap

open Text.Base64 (digit value? value?_digit)

/-- The number that digits stand for, five bits each with the lowest first. All but the last have
the bit that continues. -/
inductive Digits : List Char → Nat → Prop
  | last {c : Char} {d : Nat} (hc : value? c = some d) (hd : d < 32) : Digits [c] d
  | more {c : Char} {d n : Nat} {cs : List Char} (hc : value? c = some d) (hd : 32 ≤ d)
    (h : Digits cs n) : Digits (c :: cs) (d % 32 + 32 * n)

/-- The integer that has its sign in the lowest bit of a number. -/
def signed (n : Nat) : Int := if n % 2 = 1 then -(n / 2 : Nat) else (n / 2 : Nat)

/-- The integer that the digits of one quantity denote. -/
def Denotes (cs : List Char) (n : Int) : Prop := ∃ m, Digits cs m ∧ n = signed m

/-- A text that is the digits of some quantities, one behind the other, and the integers that these
denote. -/
structure Reading (field : List Char) (pieces : List (List Char)) (ns : List Int) : Prop where
  field_eq : field = pieces.flatten
  denotes : List.Forall₂ Denotes pieces ns

variable {cs rest : List Char} {n : Nat}

/-- Digits stand for a number if there are any. -/
theorem Digits.length_pos (h : Digits cs n) : 0 < cs.length := by
  cases h <;> exact Nat.succ_pos _

/-- Where the digits of a quantity end is told by the digits. -/
theorem Digits.append_inj {cs' rest' : List Char} {n' : Nat} (h : Digits cs n) (h' : Digits cs' n')
    (heq : cs ++ rest = cs' ++ rest') : cs = cs' ∧ n = n' ∧ rest = rest' := by
  induction h generalizing cs' n' with
  | @last c d hc hd =>
    cases h' with
    | last hc' =>
      obtain ⟨rfl, rfl⟩ := List.cons.inj heq
      obtain rfl := Option.some.inj (hc.symm.trans hc')
      exact ⟨rfl, rfl, rfl⟩
    | more hc' hd' =>
      obtain ⟨rfl, -⟩ := List.cons.inj heq
      obtain rfl := Option.some.inj (hc.symm.trans hc')
      omega
  | @more c d n cs hc hd _ ih =>
    cases h' with
    | last hc' hd' =>
      obtain ⟨rfl, -⟩ := List.cons.inj heq
      obtain rfl := Option.some.inj (hc.symm.trans hc')
      omega
    | more hc' _ h' =>
      obtain ⟨rfl, hrest⟩ := List.cons.inj heq
      obtain rfl := Option.some.inj (hc.symm.trans hc')
      obtain ⟨rfl, rfl, rfl⟩ := ih h' hrest
      exact ⟨rfl, rfl, rfl⟩

/-- An integer is denoted by some digits. -/
theorem Denotes.ne_nil {n : Int} (h : Denotes cs n) : cs ≠ [] := by
  obtain ⟨m, hm, -⟩ := h
  exact List.ne_nil_of_length_pos hm.length_pos

/-- A text has no more than one reading. -/
theorem Reading.unique {field : List Char} {pieces pieces' : List (List Char)} {ns ns' : List Int}
    (h : Reading field pieces ns) (h' : Reading field pieces' ns') :
    pieces = pieces' ∧ ns = ns' := by
  obtain ⟨rfl, hdenotes⟩ := h
  obtain ⟨hflatten, hdenotes'⟩ := h'
  induction hdenotes generalizing pieces' ns' with
  | nil =>
    cases hdenotes' with
    | nil => exact ⟨rfl, rfl⟩
    | cons hfirst => exact absurd (List.append_eq_nil_iff.mp hflatten.symm).1 hfirst.ne_nil
  | cons hfirst _ ih =>
    cases hdenotes' with
    | nil => exact absurd (List.append_eq_nil_iff.mp hflatten).1 hfirst.ne_nil
    | cons hfirst' hmore' =>
      obtain ⟨m, hm, rfl⟩ := hfirst
      obtain ⟨m', hm', rfl⟩ := hfirst'
      obtain ⟨rfl, rfl, hrest⟩ := hm.append_inj hm' hflatten
      obtain ⟨rfl, rfl⟩ := ih hrest hmore'
      exact ⟨rfl, rfl⟩

/-- The digits of a quantity are added to the word that was begun, if they are thirteen at most. -/
theorem decodeQuantities_append (h : Digits cs n) {k : Nat} (hlength : k + cs.length ≤ 13)
    (offset word : Nat) (rest : List Char) :
    decodeQuantities offset word (5 * k) (cs ++ rest) = (do
      let more ← decodeQuantities (offset + cs.length) 0 0 rest
      return ofSignBit (word + n * 2 ^ (5 * k)) :: more) := by
  induction h generalizing k offset word with
  | @last c d hc hd =>
    rw [List.singleton_append, decodeQuantities, hc]
    simp only [Nat.mod_eq_of_lt hd, hd, ite_true, List.length_singleton]
    rfl
  | @more c d n cs hc hd h ih =>
    have hpos := h.length_pos
    rw [List.length_cons] at hlength
    have hword : word + d % 32 * Nat.pow 2 (5 * k) + n * 2 ^ (5 * (k + 1)) =
        word + (d % 32 + 32 * n) * 2 ^ (5 * k) := by
      change word + d % 32 * 2 ^ (5 * k) + n * 2 ^ (5 * k + 5) = _
      rw [Nat.pow_add, Nat.add_mul, Nat.mul_comm (2 ^ (5 * k)), ← Nat.mul_assoc, Nat.mul_comm n,
        Nat.add_assoc]
    rw [List.cons_append, decodeQuantities, hc]
    simp only [if_neg (show ¬ d < 32 by omega), if_neg (show ¬ 5 * k + 5 > 60 by omega)]
    rw [show 5 * k + 5 = 5 * (k + 1) from rfl, ih (by omega), hword, List.length_cons,
      Nat.add_assoc, Nat.add_comm 1]

/-- What is read without a fault is at its end, or the digits of a quantity come first. -/
theorem exists_of_decodeQuantities {offset word k : Nat} {values : List Int} (hk : k ≤ 12)
    (h : decodeQuantities offset word (5 * k) cs = .ok values) :
    k = 0 ∧ cs = [] ∨ ∃ piece m rest, cs = piece ++ rest ∧ Digits piece m ∧
      k + piece.length ≤ 13 := by
  induction cs generalizing offset word k with
  | nil =>
    rw [decodeQuantities] at h
    split at h
    · exact Or.inl ⟨by omega, rfl⟩
    · cases h
  | cons c rest ih =>
    rw [decodeQuantities] at h
    cases hc : value? c with
    | none => simp [hc] at h
    | some d =>
      simp only [hc] at h
      split at h
      · rename_i hd
        exact Or.inr ⟨[c], d, rest, rfl, .last hc hd, by simp; omega⟩
      · rename_i hd
        split at h
        · cases h
        · rcases ih (k := k + 1) (by omega) h with ⟨hzero, -⟩ | ⟨piece, m, more, rfl, hm, hle⟩
          · omega
          · exact Or.inr ⟨c :: piece, _, more, rfl, .more hc (by omega) hm, by simp; omega⟩

/-- The integer that is left of another in a word of 64 bits with the sign in its lowest bit. -/
def wrapped (n : Int) : Int := n.sign * (n.natAbs : Int).bmod (2 ^ 63)

/-- A number that is taken into 63 bits with sign is told by its remainder. -/
theorem bmod_size (m : Nat) : (m : Int).bmod (2 ^ 63) =
    if m % 2 ^ 63 < 2 ^ 62 then ((m % 2 ^ 63 : Nat) : Int) else (m % 2 ^ 63 : Nat) - 2 ^ 63 := by
  simp only [Int.bmod]
  split <;> split <;> omega

/-- A natural number is left as its value in 63 bits with sign. -/
theorem wrapped_natCast (m : Nat) : wrapped m = (m : Int).bmod (2 ^ 63) := by
  cases m with
  | zero => rfl
  | succ m => rw [wrapped, Int.sign_eq_one_of_pos (by omega), Int.one_mul, Int.natAbs_natCast]

/-- What is left of a negative integer is the negative of what is left of the other. -/
theorem wrapped_neg (n : Int) : wrapped (-n) = -wrapped n := by
  rw [wrapped, wrapped, Int.sign_neg, Int.natAbs_neg, Int.neg_mul]

/-- Integers below 2 ^ 62 in size are those that a word leaves as they are. -/
theorem wrapped_eq_iff (n : Int) : wrapped n = n ↔ n.natAbs < 2 ^ 62 := by
  have hcast (m : Nat) : wrapped m = m ↔ m < 2 ^ 62 := by
    rw [wrapped_natCast, bmod_size]
    split <;> omega
  rcases Int.natAbs_eq n with hn | hn
  · rw [hn, hcast, Int.natAbs_natCast]
  · rw [hn, wrapped_neg, Int.neg_inj, hcast, Int.natAbs_neg, Int.natAbs_natCast]

/-- A word holds what is left of the integer that a number stands for. -/
theorem ofSignBit_eq (n : Nat) : ofSignBit n = wrapped (signed n) := by
  have hhalf : (if n % 2 ^ 64 < 2 ^ 63 then ((n % 2 ^ 64 : Nat) : Int)
      else ((n % 2 ^ 64 : Nat) : Int) - 2 ^ 64).fdiv 2 = wrapped (n / 2 : Nat) := by
    rw [Int.fdiv_eq_ediv_of_nonneg _ (by decide), wrapped_natCast, bmod_size]
    split <;> split <;> omega
  have hword : ofSignBit n =
      if n % 2 ^ 64 % 2 = 1 then -wrapped (n / 2 : Nat) else wrapped (n / 2 : Nat) := by
    rw [← hhalf]
    simp only [← beq_iff_eq (a := n % 2 ^ 64 % 2)]
    rfl
  rw [hword, signed, Nat.mod_mod_of_dvd n (by decide)]
  split
  · rw [wrapped_neg]
  · rfl

/-- Reading takes the digits of quantities of up to thirteen digits, and gives what is left in words
of the integers that they denote. -/
theorem decodeQuantities_eq_ok_iff {offset : Nat} {field : List Char} {values : List Int} :
    decodeQuantities offset 0 0 field = .ok values ↔ ∃ pieces ns, Reading field pieces ns ∧
      (∀ piece ∈ pieces, piece.length ≤ 13) ∧ values = ns.map wrapped := by
  constructor
  · intro h
    induction hlength : field.length using Nat.strongRecOn generalizing offset field values with
    | ind _ ih =>
      rcases exists_of_decodeQuantities (Nat.zero_le 12) h with
        ⟨-, rfl⟩ | ⟨piece, m, rest, rfl, hm, hle⟩
      · obtain rfl := Except.ok.inj h
        exact ⟨[], [], ⟨rfl, .nil⟩, by simp, rfl⟩
      · rw [Nat.zero_add] at hle
        have happend := decodeQuantities_append hm (k := 0) (by omega) offset 0 rest
        rw [Nat.mul_zero, h] at happend
        obtain ⟨more, hmore, hvalues⟩ := exists_of_bind_eq_ok happend.symm
        have hpos := hm.length_pos
        rw [List.length_append] at hlength
        obtain ⟨pieces, ns, ⟨rfl, hdenotes⟩, hshort, rfl⟩ :=
          ih rest.length (by omega) hmore rfl
        refine ⟨piece :: pieces, signed m :: ns, ⟨rfl, .cons ⟨m, hm, rfl⟩ hdenotes⟩,
          List.forall_mem_cons.mpr ⟨hle, hshort⟩, ?_⟩
        rw [← Except.ok.inj hvalues, ofSignBit_eq]
        simp
  · rintro ⟨pieces, ns, ⟨rfl, hdenotes⟩, hshort, rfl⟩
    induction hdenotes generalizing offset with
    | nil => rfl
    | @cons piece n pieces ns hfirst _ ih =>
      obtain ⟨m, hm, rfl⟩ := hfirst
      obtain ⟨hle, hshort⟩ := List.forall_mem_cons.mp hshort
      have happend := decodeQuantities_append hm (k := 0) (by omega) offset 0 pieces.flatten
      rw [Nat.mul_zero, ih hshort, ofSignBit_eq] at happend
      rw [List.flatten_cons, happend]
      simp [bind, Except.bind, pure, Except.pure]

/-- A small number has one digit. -/
theorem quantityDigits_of_lt (h : n < 32) : quantityDigits n = [digit n] := by
  rw [quantityDigits, if_pos h]

/-- A larger number has a digit for its five lowest bits, which continues, and those of the rest. -/
theorem quantityDigits_of_le (h : 32 ≤ n) :
    quantityDigits n = digit (n % 32 + 32) :: quantityDigits (n / 32) := by
  rw [quantityDigits, if_neg (by omega)]

/-- The digits of a number stand for it. -/
theorem digits_quantityDigits (n : Nat) : Digits (quantityDigits n) n := by
  induction n using Nat.strongRecOn with
  | ind n ih =>
    by_cases hn : n < 32
    · rw [quantityDigits_of_lt hn]
      exact .last (by rw [value?_digit, Nat.mod_eq_of_lt (by omega)]) hn
    · have hmore := Digits.more (value?_digit (n % 32 + 32)) (by omega) (ih (n / 32) (by omega))
      rw [quantityDigits_of_le (by omega)]
      convert hmore using 1
      omega

/-- Five bits more need one digit more at most. -/
theorem length_quantityDigits_le {k : Nat} (h : n < 2 ^ (5 * (k + 1))) :
    (quantityDigits n).length ≤ k + 1 := by
  induction k generalizing n with
  | zero =>
    rw [quantityDigits_of_lt h]
    exact Nat.le_refl 1
  | succ k ih =>
    by_cases hn : n < 32
    · rw [quantityDigits_of_lt hn, List.length_singleton]
      omega
    · rw [quantityDigits_of_le (by omega), List.length_cons]
      have hdiv : n / 32 < 2 ^ (5 * (k + 1)) := by
        rw [Nat.div_lt_iff_lt_mul (by decide)]
        exact Nat.lt_of_lt_of_eq h (Nat.pow_add 2 (5 * (k + 1)) 5)
      exact Nat.succ_le_succ (ih hdiv)

/-- An integer is told by its sign bit and size. -/
theorem signed_signBit (n : Int) : signed (signBit n) = n := by
  unfold signed signBit
  split <;> split <;> omega

/-- A written quantity denotes the integer. -/
theorem denotes_encodeQuantity (n : Int) : Denotes (encodeQuantity n) n :=
  ⟨signBit n, digits_quantityDigits _, (signed_signBit n).symm⟩

/-- An integer of less than 62 bits is written with thirteen digits at most. -/
theorem length_encodeQuantity_le {n : Int} (h : n.natAbs < 2 ^ 62) :
    (encodeQuantity n).length ≤ 13 := by
  refine length_quantityDigits_le (k := 12) ?_
  unfold signBit
  split <;> omega

/-- Reading written quantities gives them back. -/
theorem decodeQuantities_flatMap {ns : List Int} (h : ∀ n ∈ ns, n.natAbs < 2 ^ 62)
    (offset : Nat) : decodeQuantities offset 0 0 (ns.flatMap encodeQuantity) = .ok ns := by
  refine decodeQuantities_eq_ok_iff.mpr ⟨ns.map encodeQuantity, ns, ⟨rfl, ?_⟩, ?_, ?_⟩
  · exact List.forall₂_map_left_iff.mpr
      (List.forall₂_same.mpr fun n _ => denotes_encodeQuantity n)
  · intro piece hpiece
    obtain ⟨n, hn, rfl⟩ := List.mem_map.mp hpiece
    exact length_encodeQuantity_le (h n hn)
  · refine (List.map_id ns).symm.trans (List.map_congr_left fun n hn => ?_)
    exact ((wrapped_eq_iff n).mpr (h n hn)).symm

/-- Integers below 2 ^ 62 in size are read back as they were written. A text is read when it is the
digits of quantities of up to thirteen digits, and each value is the integer that its digits denote
just when this is below 2 ^ 62 in size. -/
theorem decodeQuantities_exact_iff (offset : Nat) :
    (∀ ns : List Int, (∀ n ∈ ns, n.natAbs < 2 ^ 62) →
      decodeQuantities offset 0 0 (ns.flatMap encodeQuantity) = .ok ns) ∧
    ∀ field : List Char,
      ((∃ values, decodeQuantities offset 0 0 field = .ok values) ↔
        ∃ pieces ns, Reading field pieces ns ∧ ∀ piece ∈ pieces, piece.length ≤ 13) ∧
      ∀ pieces ns values, Reading field pieces ns →
        decodeQuantities offset 0 0 field = .ok values →
        values = ns.map wrapped ∧
          List.Forall₂ (fun value n => value = n ↔ n.natAbs < 2 ^ 62) values ns := by
  refine ⟨fun ns h => decodeQuantities_flatMap h offset, fun field => ⟨?_, ?_⟩⟩
  · constructor
    · rintro ⟨values, h⟩
      obtain ⟨pieces, ns, hreading, hshort, -⟩ := decodeQuantities_eq_ok_iff.mp h
      exact ⟨pieces, ns, hreading, hshort⟩
    · rintro ⟨pieces, ns, hreading, hshort⟩
      exact ⟨_, decodeQuantities_eq_ok_iff.mpr ⟨pieces, ns, hreading, hshort, rfl⟩⟩
  · intro pieces ns values hreading h
    obtain ⟨pieces', ns', hreading', -, rfl⟩ := decodeQuantities_eq_ok_iff.mp h
    obtain ⟨rfl, rfl⟩ := hreading.unique hreading'
    refine ⟨rfl, List.forall₂_map_left_iff.mpr (List.forall₂_same.mpr fun n _ => ?_)⟩
    exact wrapped_eq_iff n

/-- A quantity of 2 ^ 63, whose thirteenth digit has no bit inside the word. -/
def beyondWord : List Char := "ggggggggggggQ".toList

/-- The text is the digits of 2 ^ 63. -/
theorem reading_beyondWord : Reading beyondWord [beyondWord] [2 ^ 63] := by
  have hdigits : encodeQuantity (2 ^ 63) = beyondWord := by decide +kernel
  refine ⟨(List.append_nil _).symm, .cons ?_ .nil⟩
  rw [← hdigits]
  exact denotes_encodeQuantity (2 ^ 63)

/-- The text is read as zero. -/
theorem decodeQuantities_beyondWord : decodeQuantities 0 0 0 beyondWord = .ok [0] := by
  decide +kernel

/-- The greatest integers of each sign are read back, and one of 2 ^ 63 is read as zero. -/
theorem decodeQuantities_exact_iff_bounds :
    (∀ n ∈ [2 ^ 62 - 1, -(2 ^ 62 - 1), (0 : Int)], n.natAbs < 2 ^ 62) ∧
      decodeQuantities 0 0 0 ([2 ^ 62 - 1, -(2 ^ 62 - 1), (0 : Int)].flatMap encodeQuantity) =
        .ok [2 ^ 62 - 1, -(2 ^ 62 - 1), 0] ∧
      Reading beyondWord [beyondWord] [2 ^ 63] ∧ decodeQuantities 0 0 0 beyondWord = .ok [0] ∧
      [0] = [2 ^ 63].map wrapped := by
  have hsmall : ∀ n ∈ [2 ^ 62 - 1, -(2 ^ 62 - 1), (0 : Int)], n.natAbs < 2 ^ 62 := by decide
  obtain ⟨hback, hread⟩ := decodeQuantities_exact_iff 0
  exact ⟨hsmall, hback _ hsmall, reading_beyondWord, decodeQuantities_beyondWord,
    ((hread beyondWord).2 _ _ _ reading_beyondWord decodeQuantities_beyondWord).1⟩

/-- An integer that no signed word of 64 bits holds is read, and read as another. -/
theorem not_forall_decoded_eq :
    ¬ (∀ field pieces ns values, Reading field pieces ns →
        decodeQuantities 0 0 0 field = .ok values → values = ns) ∧
      ¬ ∀ field pieces ns values, Reading field pieces ns →
        decodeQuantities 0 0 0 field = .ok values → ∀ n ∈ ns, -2 ^ 63 ≤ n ∧ n < 2 ^ 63 := by
  refine ⟨fun h => ?_, fun h => ?_⟩
  · have heq := h _ _ _ _ reading_beyondWord decodeQuantities_beyondWord
    revert heq
    decide
  · have hfits := h _ _ _ _ reading_beyondWord decodeQuantities_beyondWord
    revert hfits
    decide

end ScriptModules.SourceMap

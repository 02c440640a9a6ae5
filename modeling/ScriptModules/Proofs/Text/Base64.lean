import ScriptModules.Proofs.Text.WellFormed
import ScriptModules.Text.Base64

/-!
# Reading base64 back

The digits of some bytes are read back as the bytes, and stand on one line.
-/

namespace ScriptModules.Text.Base64

/-- A digit has the value that it is written for, of its six bits. -/
theorem value?_digit (n : Nat) : value? (digit n) = some (n % 64) := by
  have hall : ∀ k < 64, value? (alphabet.getD k 'A') = some k := by decide +kernel
  exact hall _ (Nat.mod_lt n (by decide))

/-- A digit is one of the alphabet. -/
theorem digit_mem (n : Nat) : digit n ∈ alphabet := by
  have hlength : n % 64 < alphabet.length := Nat.mod_lt n (by decide)
  rw [digit, List.getD_eq_getElem?_getD, List.getElem?_eq_getElem hlength]
  exact List.getElem_mem hlength

/-- No digit is a character outside the alphabet. -/
theorem digit_ne_of_notMem {c : Char} (h : c ∉ alphabet) (n : Nat) : digit n ≠ c := by
  rintro rfl
  exact h (digit_mem n)

/-- What fills up the last group is no digit. -/
theorem digit_ne_filler (n : Nat) : digit n ≠ '=' := digit_ne_of_notMem (by decide) n

theorem toUInt8_eq {n : Nat} {b : UInt8} (h : n = b.toNat) : n.toUInt8 = b := by
  rw [h]
  exact UInt8.ofNat_toNat

/-- Two digits with padding are read as one byte. -/
theorem decode?_one (m n : Nat) : decode? [digit m, digit n, '=', '='] =
    some [((m % 64 * 64 + n % 64) / 16).toUInt8] := by
  simp only [decode?, value?_digit]
  rfl

/-- Three digits with padding are read as two bytes. -/
theorem decode?_two (l m n : Nat) : decode? [digit l, digit m, digit n, '='] =
    let bits := (l % 64 * 64 + m % 64) * 64 + n % 64
    some [(bits / 1024).toUInt8, (bits / 4 % 256).toUInt8] := by
  rw [decode?.eq_3 _ _ _ fun h => digit_ne_filler n h]
  simp only [value?_digit]
  rfl

/-- Four digits are read as three bytes. -/
theorem decode?_three (k l m n : Nat) (rest : List Char) :
    decode? (digit k :: digit l :: digit m :: digit n :: rest) =
      let bits := ((k % 64 * 64 + l % 64) * 64 + m % 64) * 64 + n % 64
      (decode? rest).map fun more =>
        (bits / 65536).toUInt8 :: (bits / 256 % 256).toUInt8 :: (bits % 256).toUInt8 :: more := by
  have hlast := digit_ne_filler n
  rw [decode?.eq_4 _ _ _ _ _ (fun _ h _ => hlast h) fun h _ => hlast h]
  simp only [value?_digit]
  cases decode? rest <;> rfl

/-- The digits of some bytes are read back as the bytes. -/
theorem decode?_encode (bytes : List UInt8) : decode? (encode bytes) = some bytes := by
  induction bytes using encode.induct with
  | case1 => rfl
  | case2 a =>
    have ha : a.toNat < 256 := a.toNat_lt
    have hbits : a.toNat * 16 / 64 % 64 * 64 + a.toNat * 16 % 64 = a.toNat * 16 := by omega
    rw [encode, decode?_one, hbits, toUInt8_eq (b := a) (by omega)]
  | case3 a b =>
    have ha : a.toNat < 256 := a.toNat_lt
    have hb : b.toNat < 256 := b.toNat_lt
    rw [encode, decode?_two]
    dsimp only
    generalize hn : (a.toNat * 256 + b.toNat) * 4 = n
    have hbits : (n / 4096 % 64 * 64 + n / 64 % 64) * 64 + n % 64 = n := by omega
    rw [hbits, toUInt8_eq (b := a) (by omega), toUInt8_eq (b := b) (by omega)]
  | case4 a b c rest ih =>
    have ha : a.toNat < 256 := a.toNat_lt
    have hb : b.toNat < 256 := b.toNat_lt
    have hc : c.toNat < 256 := c.toNat_lt
    rw [encode, decode?_three, ih]
    dsimp only
    generalize hn : (a.toNat * 256 + b.toNat) * 256 + c.toNat = n
    have hbits : ((n / 262144 % 64 * 64 + n / 4096 % 64) * 64 + n / 64 % 64) * 64 + n % 64 = n := by
      omega
    rw [hbits, toUInt8_eq (b := a) (by omega), toUInt8_eq (b := b) (by omega),
      toUInt8_eq (b := c) (by omega), Option.map_some]

/-- The digits stand on one line. -/
theorem newline_notMem_encode (bytes : List UInt8) : '\n' ∉ encode bytes := by
  have hdigit (n : Nat) : '\n' ≠ digit n := (digit_ne_of_notMem (by decide) n).symm
  induction bytes using encode.induct with
  | case1 => exact List.not_mem_nil
  | case2 a => simp [encode, hdigit]
  | case3 a b => simp [encode, hdigit]
  | case4 a b c rest ih => simp [encode, hdigit, ih]

/-- The digits of a text are read back as the text. -/
theorem decode?_encodeText (s : String) :
    (decode? (encodeText s).toList).bind Text.decode? = some s := by
  rw [encodeText, String.toList_ofList, decode?_encode, Option.bind_some, toList_toUTF8]
  exact decode?_eq_some_iff.mpr rfl

/-- No line end is written among digits. -/
theorem newline_notMem_encodeText (s : String) : '\n' ∉ (encodeText s).toList := by
  rw [encodeText, String.toList_ofList]
  exact newline_notMem_encode _

end ScriptModules.Text.Base64

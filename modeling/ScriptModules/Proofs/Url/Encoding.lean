import ScriptModules.Proofs.Text.WellFormed
import ScriptModules.Url.Encoding

/-!
# Reading percent signs back

What is encoded reads back as the bytes of the text, as long as percent signs are encoded
themselves. Encoding brings in nothing but percent signs and digits.
-/

namespace ScriptModules.Url

variable {isEncoded : Char → Bool}

/-- The characters that encoding brings in. -/
def escapes : List Char := "%0123456789ABCDEF".toList

/-- A byte is encoded with its two digits. -/
theorem hexDigit?_encodeByte (b : UInt8) : ∃ x y, encodeByte b = ['%', x, y] ∧
    hexDigit? x = some (b.toNat / 16) ∧ hexDigit? y = some (b.toNat % 16) := by
  have hall : ∀ n < 256,
      hexDigit? ((encodeByte (UInt8.ofNat n)).getD 1 ' ') = some (n / 16) ∧
        hexDigit? ((encodeByte (UInt8.ofNat n)).getD 2 ' ') = some (n % 16) := by
    decide +kernel
  have hb := hall b.toNat b.toNat_lt
  rw [UInt8.ofNat_toNat] at hb
  exact ⟨_, _, rfl, hb⟩

/-- What encodes a byte is a percent sign and digits. -/
theorem subset_escapes_encodeByte (b : UInt8) : encodeByte b ⊆ escapes := by
  have hall : ∀ n < 256, (encodeByte (UInt8.ofNat n)).all (escapes.contains ·) = true := by
    decide +kernel
  have hb := hall b.toNat b.toNat_lt
  rw [UInt8.ofNat_toNat] at hb
  intro c hc
  exact List.contains_iff_mem.mp (List.all_eq_true.mp hb c hc)

/-- An encoded byte is decoded as itself. -/
theorem decode_encodeByte (b : UInt8) (rest : List Char) :
    decode (encodeByte b ++ rest) = b :: decode rest := by
  obtain ⟨x, y, hbyte, hx, hy⟩ := hexDigit?_encodeByte b
  have hvalue : 16 * (b.toNat / 16) + b.toNat % 16 = b.toNat := Nat.div_add_mod _ _
  rw [hbyte, List.cons_append, List.cons_append, List.singleton_append, decode, hx, hy]
  dsimp only
  rw [hvalue]
  exact congrArg (· :: decode rest) UInt8.ofNat_toNat

/-- Encoded bytes are decoded as themselves. -/
theorem decode_flatMap_encodeByte (bytes : List UInt8) (rest : List Char) :
    decode (bytes.flatMap encodeByte ++ rest) = bytes ++ decode rest := by
  induction bytes with
  | nil => rfl
  | cons b more ih => rw [List.flatMap_cons, List.append_assoc, decode_encodeByte, ih]; rfl

/-- A character that is no percent sign stands for itself. -/
theorem decode_cons_of_ne {c : Char} (h : c ≠ '%') (rest : List Char) :
    decode (c :: rest) = Text.utf8 [c] ++ decode rest := by
  rw [decode]
  rintro a b r rfl
  exact absurd rfl h

/-- The first character is encoded before the others. -/
theorem encode_cons (isEncoded : Char → Bool) (c : Char) (cs : List Char) :
    encode isEncoded (c :: cs) = encode isEncoded [c] ++ encode isEncoded cs := by
  simp [encode]

/-- Two texts are encoded one after the other. -/
theorem encode_append (isEncoded : Char → Bool) (cs ds : List Char) :
    encode isEncoded (cs ++ ds) = encode isEncoded cs ++ encode isEncoded ds :=
  List.flatMap_append

/-- A character that needs no encoding stays. -/
theorem encode_singleton_of_not {c : Char} (h : isEncoded c = false) :
    encode isEncoded [c] = [c] := by
  simp [encode, h]

/-- What holds nothing to be encoded is written as it is. -/
theorem encode_eq_self {cs : List Char} (h : ∀ c ∈ cs, isEncoded c = false) :
    encode isEncoded cs = cs := by
  induction cs with
  | nil => rfl
  | cons c rest ih =>
    rw [encode_cons, encode_singleton_of_not (h c List.mem_cons_self),
      ih fun d hd => h d (List.mem_cons_of_mem _ hd)]
    rfl

/-- What was encoded reads back as the bytes of the text. -/
theorem decode_encode (h : isEncoded '%' = true) (cs rest : List Char) :
    decode (encode isEncoded cs ++ rest) = Text.utf8 cs ++ decode rest := by
  induction cs with
  | nil => rfl
  | cons c more ih =>
    have hbytes : Text.utf8 (c :: more) = Text.utf8 [c] ++ Text.utf8 more := by simp [Text.utf8]
    rw [encode_cons, List.append_assoc, hbytes, List.append_assoc, ← ih]
    cases hc : isEncoded c with
    | true =>
      have hencode : encode isEncoded [c] = (Text.utf8 [c]).flatMap encodeByte := by
        simp [encode, hc]
      rw [hencode, decode_flatMap_encodeByte]
    | false =>
      have hpercent : c ≠ '%' := by
        rintro rfl
        simp [h] at hc
      rw [encode_singleton_of_not hc, List.singleton_append, decode_cons_of_ne hpercent]

/-- Encoding keeps texts apart. -/
theorem encode_injective (h : isEncoded '%' = true) {cs ds : List Char}
    (heq : encode isEncoded cs = encode isEncoded ds) : cs = ds := by
  have hc := decode_encode h cs []
  rw [heq, decode_encode h ds []] at hc
  exact (Text.utf8_injective (List.append_cancel_right hc)).symm

/-- Other characters than those that encoding brings in are left over from the text. -/
theorem mem_encode_iff {c : Char} (hc : c ∉ escapes) {cs : List Char} :
    c ∈ encode isEncoded cs ↔ c ∈ cs ∧ isEncoded c = false := by
  rw [encode, List.mem_flatMap]
  constructor
  · rintro ⟨d, hd, hmem⟩
    split at hmem
    · obtain ⟨b, -, hb⟩ := List.mem_flatMap.mp hmem
      exact absurd (subset_escapes_encodeByte b hb) hc
    · obtain rfl := List.mem_singleton.mp hmem
      exact ⟨hd, by simpa using ‹¬ isEncoded c = true›⟩
  · rintro ⟨hmem, henc⟩
    exact ⟨c, hmem, by simp [henc]⟩

/-- Every character is encoded as something. -/
theorem encode_ne_nil (isEncoded : Char → Bool) (c : Char) : encode isEncoded [c] ≠ [] := by
  cases hc : isEncoded c with
  | false => simp [encode_singleton_of_not hc]
  | true =>
    intro hnil
    have hbytes : encode isEncoded [c] = (Text.utf8 [c]).flatMap encodeByte := by simp [encode, hc]
    rw [hbytes, List.flatMap_eq_nil_iff] at hnil
    have hno : Text.utf8 [c] = Text.utf8 [] :=
      List.eq_nil_iff_forall_not_mem.mpr fun b hb => absurd (hnil b hb) (by simp [encodeByte])
    exact absurd (Text.utf8_injective hno) (by simp)

/-- Encoding makes a text no shorter. -/
theorem length_le_encode (isEncoded : Char → Bool) (cs : List Char) :
    cs.length ≤ (encode isEncoded cs).length := by
  induction cs with
  | nil => simp
  | cons c rest ih =>
    have hpos := List.length_pos_iff.mpr (encode_ne_nil isEncoded c)
    rw [encode_cons, List.length_append, List.length_cons]
    omega

end ScriptModules.Url

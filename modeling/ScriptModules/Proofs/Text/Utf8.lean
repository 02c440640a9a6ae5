import ScriptModules.Text.Utf8

/-!
# ASCII in UTF-8

An ASCII character is one byte, and that byte stands for the character wherever it occurs, also
after bytes that are broken off.
-/

namespace ScriptModules.Text

/-- The byte of an ASCII character. -/
def asciiByte (c : Char) : UInt8 := UInt8.ofNat c.val.toNat

/-- The byte of an ASCII character is one of the lower half. -/
theorem asciiByte_lt {c : Char} (h : c.val.toNat < 0x80) : (asciiByte c).toNat < 0x80 := by
  simp only [asciiByte, UInt8.toNat_ofNat']
  omega

/-- The byte of an ASCII character is its number. -/
theorem ofNat_asciiByte {c : Char} (h : c.val.toNat < 0x80) :
    Char.ofNat (asciiByte c).toNat = c := by
  have hnat : (asciiByte c).toNat = c.toNat := by
    simp only [asciiByte, UInt8.toNat_ofNat']
    exact Nat.mod_eq_of_lt (by omega)
  rw [hnat, Char.ofNat_toNat]

/-- An ASCII character is one byte. -/
theorem utf8_singleton_ascii {c : Char} (h : c.val.toNat < 0x80) : utf8 [c] = [asciiByte c] := by
  have hencode : String.utf8EncodeChar c = [asciiByte c] := by
    rw [String.utf8EncodeChar, if_pos (by omega)]
    rfl
  have hbytes : (String.singleton c).toUTF8 = [asciiByte c].toByteArray := by
    rw [show String.singleton c = String.ofList [c] from (String.toList_inj.mp (by simp)),
      String.toUTF8_eq_toByteArray, String.toByteArray_ofList, List.utf8Encode, List.flatMap_cons,
      hencode]
    rfl
  rw [utf8, List.flatMap_cons, hbytes, ByteArray.toList, ByteArray.toList.loop,
    ByteArray.toList.loop]
  rfl

/-- ASCII characters are one byte each. -/
theorem utf8_ascii {cs : List Char} (h : ∀ c ∈ cs, c.val.toNat < 0x80) :
    utf8 cs = cs.map asciiByte := by
  induction cs with
  | nil => rfl
  | cons c rest ih =>
    have hsplit : utf8 (c :: rest) = utf8 [c] ++ utf8 rest := by simp [utf8]
    rw [hsplit, utf8_singleton_ascii (h c List.mem_cons_self),
      ih fun d hd => h d (List.mem_cons_of_mem _ hd)]
    rfl

/-- What goes on with a character takes no more bytes than there are. -/
theorem continuation_fst_le (low high need bits : Nat) (bytes : List UInt8) :
    (continuation low high need bits bytes).1 ≤ bytes.length := by
  induction need generalizing low high bits bytes with
  | zero => simp [continuation]
  | succ need ih =>
    cases bytes with
    | nil => simp [continuation]
    | cons b rest =>
      rw [continuation]
      split
      · exact Nat.succ_le_succ (ih _ _ _ _)
      · simp

/-- An ASCII byte continues no character. -/
theorem continuation_append {low : Nat} (hlow : 0x80 ≤ low) {b : UInt8} (hb : b.toNat < 0x80)
    (high need bits : Nat) (bytes rest : List UInt8) :
    continuation low high need bits (bytes ++ b :: rest) =
      continuation low high need bits bytes := by
  induction need generalizing low high bits bytes with
  | zero => simp [continuation]
  | succ need ih =>
    cases bytes with
    | nil =>
      have hno : ¬ (low ≤ b.toNat ∧ b.toNat ≤ high) := by
        omega
      simp [continuation, hno]
    | cons d more =>
      rw [List.cons_append, continuation, continuation]
      split
      · rw [ih (Nat.le_refl _)]
      · rfl

/-- What goes on with a character is in the upper half. -/
theorem low_of_leadByte? {n low high need bits : Nat}
    (h : leadByte? n = some (low, high, need, bits)) : 0x80 ≤ low := by
  unfold leadByte? at h
  repeat' split at h
  all_goals simp at h
  all_goals omega

/-- A character takes at least one of the bytes that are there. -/
theorem firstChar_snd (b : UInt8) (rest : List UInt8) :
    0 < (firstChar b rest).2 ∧ (firstChar b rest).2 ≤ (b :: rest).length := by
  unfold firstChar
  split
  · simp
  · split
    · simp
    · exact ⟨Nat.succ_pos _, Nat.succ_le_succ (continuation_fst_le _ _ _ _ _)⟩

/-- An ASCII byte ends the character before it. -/
theorem firstChar_append {b : UInt8} (hb : b.toNat < 0x80) (d : UInt8) (bytes rest : List UInt8) :
    firstChar d (bytes ++ b :: rest) = firstChar d bytes := by
  unfold firstChar
  split
  · rfl
  · split
    · rfl
    · rename_i hlead
      rw [continuation_append (low_of_leadByte? hlead) hb]

/-- An ASCII byte is a character by itself. -/
theorem firstChar_ascii {b : UInt8} (hb : b.toNat < 0x80) (rest : List UInt8) :
    firstChar b rest = (some (Char.ofNat b.toNat), 1) := by
  rw [firstChar, if_pos hb]

/-- A limit that is high enough makes no difference. -/
theorem pieces_eq_of_le {limit limit' : Nat} {bytes : List UInt8} (h : bytes.length ≤ limit)
    (h' : bytes.length ≤ limit') : pieces limit bytes = pieces limit' bytes := by
  induction limit generalizing limit' bytes with
  | zero =>
    obtain rfl := List.length_eq_zero_iff.mp (Nat.le_zero.mp h)
    cases limit' <;> rfl
  | succ limit ih =>
    cases bytes with
    | nil => cases limit' <;> rfl
    | cons b rest =>
      cases limit' with
      | zero => simp at h'
      | succ limit' =>
        have htaken := firstChar_snd b rest
        rw [pieces, pieces]
        dsimp only
        rw [ih]
        all_goals simp only [List.length_drop, List.length_cons] at h h' ⊢
        all_goals omega

/-- What stands before an ASCII byte is decoded without it. -/
theorem pieces_append {b : UInt8} (hb : b.toNat < 0x80) (bytes rest : List UInt8) :
    pieces (bytes ++ b :: rest).length (bytes ++ b :: rest) =
      pieces bytes.length bytes ++ pieces (b :: rest).length (b :: rest) := by
  have hpieces (limit : Nat) (bytes : List UInt8) (hlimit : bytes.length ≤ limit) :
      pieces (limit + (b :: rest).length) (bytes ++ b :: rest) =
        pieces limit bytes ++ pieces (b :: rest).length (b :: rest) := by
    induction limit generalizing bytes with
    | zero =>
      obtain rfl := List.length_eq_zero_iff.mp (Nat.le_zero.mp hlimit)
      simp [pieces]
    | succ limit ih =>
      cases bytes with
      | nil => exact pieces_eq_of_le (Nat.le_add_left _ _) (Nat.le_refl _)
      | cons d more =>
        have htaken := firstChar_snd d more
        rw [Nat.add_right_comm, List.cons_append, pieces, pieces]
        dsimp only
        rw [firstChar_append hb, ← List.cons_append, List.drop_append_of_le_length htaken.2, ih]
        · rfl
        · simp only [List.length_drop, List.length_cons] at hlimit ⊢
          omega
  rw [List.length_append]
  exact hpieces bytes.length bytes (Nat.le_refl _)

/-- Bytes are decoded up to an ASCII byte and from there on. -/
theorem decodeLossy_append {b : UInt8} (hb : b.toNat < 0x80) (bytes rest : List UInt8) :
    decodeLossy (bytes ++ b :: rest) = decodeLossy bytes ++ decodeLossy (b :: rest) := by
  rw [decodeLossy, decodeLossy, decodeLossy, pieces_append hb, List.map_append,
    String.ofList_append]

/-- Bytes around an ASCII byte are text if those before it and those from it on are. -/
theorem decode?_append {b : UInt8} (hb : b.toNat < 0x80) (bytes rest : List UInt8) :
    decode? (bytes ++ b :: rest) =
      (decode? bytes).bind fun front => (decode? (b :: rest)).map (front ++ ·) := by
  simp only [decode?, pieces_append hb, List.all_append, List.filterMap_append,
    String.ofList_append]
  cases (pieces bytes.length bytes).all Option.isSome <;>
    cases (pieces (b :: rest).length (b :: rest)).all Option.isSome <;> rfl

/-- An ASCII byte is decoded as its character. -/
theorem decodeLossy_cons_ascii {b : UInt8} (hb : b.toNat < 0x80) (rest : List UInt8) :
    decodeLossy (b :: rest) = String.singleton (Char.ofNat b.toNat) ++ decodeLossy rest := by
  rw [decodeLossy, List.length_cons, pieces, firstChar_ascii hb, decodeLossy]
  dsimp only
  rw [List.drop_succ_cons, List.drop_zero, List.map_cons, String.ofList_cons]
  rfl

/-- ASCII text is what its bytes are decoded to. -/
theorem decodeLossy_ascii {cs : List Char} (h : ∀ c ∈ cs, c.val.toNat < 0x80) :
    decodeLossy (cs.map asciiByte) = String.ofList cs := by
  induction cs with
  | nil => rfl
  | cons c rest ih =>
    have hc := h c List.mem_cons_self
    rw [List.map_cons, decodeLossy_cons_ascii (asciiByte_lt hc), ofNat_asciiByte hc,
      ih fun d hd => h d (List.mem_cons_of_mem _ hd), ← String.ofList_cons]

end ScriptModules.Text

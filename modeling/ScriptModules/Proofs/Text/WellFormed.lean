import ScriptModules.Proofs.Text.Utf8

/-!
# Well-formed bytes

Strict decoding accepts exactly the bytes of texts, and gives the text that the bytes are of.
-/

namespace ScriptModules.Text

private theorem byteArray_toList_loop (bytes : ByteArray) (i : Nat) (r : List UInt8) :
    ByteArray.toList.loop bytes i r = r.reverse ++ bytes.data.toList.drop i := by
  fun_induction ByteArray.toList.loop bytes i r with
  | case1 i r hlt ih =>
    have hlength : i < bytes.data.toList.length := by simpa using hlt
    have hget : bytes.get! i = bytes.data.toList[i] := by
      cases bytes
      exact getElem!_pos _ i hlt
    rw [ih, List.drop_eq_getElem_cons hlength, hget]
    simp
  | case2 i r hlt =>
    rw [List.drop_eq_nil_of_le (by simpa using Nat.le_of_not_lt hlt)]
    simp

/-- A text is encoded character by character. -/
theorem utf8_eq_flatMap (cs : List Char) : utf8 cs = cs.flatMap String.utf8EncodeChar := by
  have hchar (c : Char) : (String.singleton c).toUTF8.toList = String.utf8EncodeChar c := by
    rw [String.toUTF8_eq_toByteArray, String.toByteArray_singleton, List.utf8Encode_singleton,
      ByteArray.toList, byteArray_toList_loop, List.toList_data_toByteArray]
    rfl
  rw [utf8, funext hchar]

/-- The bytes of a text are those of its characters. -/
theorem toList_toUTF8 (s : String) : s.toUTF8.toList = utf8 s.toList := by
  have hbytes : s.toByteArray = s.toList.utf8Encode := by
    rw [← String.toByteArray_ofList, String.ofList_toList]
  rw [String.toUTF8_eq_toByteArray, hbytes, List.utf8Encode, ByteArray.toList,
    byteArray_toList_loop, List.toList_data_toByteArray, utf8_eq_flatMap]
  rfl

/-- The bytes of the first character come before those of the others. -/
theorem utf8_cons (c : Char) (cs : List Char) :
    utf8 (c :: cs) = String.utf8EncodeChar c ++ utf8 cs := by
  rw [utf8_eq_flatMap, utf8_eq_flatMap, List.flatMap_cons]

/-- The bytes of parts are those of all of them. -/
theorem utf8_flatMap {α : Type} (l : List α) (f : α → List Char) :
    utf8 (l.flatMap f) = l.flatMap fun a => utf8 (f a) := by
  simp [utf8, List.flatMap_assoc]

/-- A byte that goes on with a character. -/
def Continues (b : UInt8) : Prop := 0x80 ≤ b.toNat ∧ b.toNat ≤ 0xBF

/-- The bytes of a character, by their number. The second of three or four bytes is kept to a
shorter range where others would spell a character in more bytes than it needs, or none at all. -/
inductive Spelled : Char → List UInt8 → Prop
  | one {b : UInt8} : b.toNat < 0x80 → Spelled (Char.ofNat b.toNat) [b]
  | two {b x : UInt8} : 0xC2 ≤ b.toNat ∧ b.toNat ≤ 0xDF → Continues x →
      Spelled (Char.ofNat ((b.toNat - 0xC0) * 64 + (x.toNat - 0x80))) [b, x]
  | three {b x y : UInt8} : 0xE0 ≤ b.toNat ∧ b.toNat ≤ 0xEF → Continues x → Continues y →
      (b.toNat = 0xE0 → 0xA0 ≤ x.toNat) → (b.toNat = 0xED → x.toNat ≤ 0x9F) →
      Spelled (Char.ofNat
        (((b.toNat - 0xE0) * 64 + (x.toNat - 0x80)) * 64 + (y.toNat - 0x80))) [b, x, y]
  | four {b x y z : UInt8} : 0xF0 ≤ b.toNat ∧ b.toNat ≤ 0xF4 → Continues x → Continues y →
      Continues z → (b.toNat = 0xF0 → 0x90 ≤ x.toNat) → (b.toNat = 0xF4 → x.toNat ≤ 0x8F) →
      Spelled (Char.ofNat
        ((((b.toNat - 0xF0) * 64 + (x.toNat - 0x80)) * 64 + (y.toNat - 0x80)) * 64 +
          (z.toNat - 0x80))) [b, x, y, z]

/-- A number outside the surrogates is that of its character. -/
theorem val_ofNat {n : Nat} (h : n < 0xD800 ∨ 0xDFFF < n ∧ n < 0x110000) :
    (Char.ofNat n).val.toNat = n := by
  have hvalid : n.isValidChar := h
  rw [Char.ofNat, dif_pos hvalid]
  rfl

private theorem ofNat_eq {n : Nat} {b : UInt8} (h : n = b.toNat) : UInt8.ofNat n = b := by
  rw [h, UInt8.ofNat_toNat]

/-- The spelling of a character is its encoding. -/
theorem Spelled.eq_encode {c : Char} {bytes : List UInt8} (h : Spelled c bytes) :
    bytes = String.utf8EncodeChar c := by
  cases h with
  | one hb => rw [String.utf8EncodeChar, val_ofNat (by omega), if_pos (by omega), ofNat_eq rfl]
  | @two b x hb hx =>
    obtain ⟨hx, hx'⟩ := hx
    rw [String.utf8EncodeChar, val_ofNat (by omega), if_neg (by omega), if_pos (by omega),
      ofNat_eq (b := b) (by omega), ofNat_eq (b := x) (by omega)]
  | @three b x y hb hx hy hshortest hscalar =>
    obtain ⟨⟨hx, hx'⟩, hy, hy'⟩ := hx, hy
    rw [String.utf8EncodeChar, val_ofNat (by omega), if_neg (by omega), if_neg (by omega),
      if_pos (by omega), ofNat_eq (b := b) (by omega), ofNat_eq (b := x) (by omega),
      ofNat_eq (b := y) (by omega)]
  | @four b x y z hb hx hy hz hshortest hlast =>
    obtain ⟨⟨hx, hx'⟩, ⟨hy, hy'⟩, hz, hz'⟩ := hx, hy, hz
    rw [String.utf8EncodeChar, val_ofNat (by omega), if_neg (by omega), if_neg (by omega),
      if_neg (by omega), ofNat_eq (b := b) (by omega), ofNat_eq (b := x) (by omega),
      ofNat_eq (b := y) (by omega), ofNat_eq (b := z) (by omega)]

/-- Every character is spelled by its encoding. -/
theorem spelled_encode (c : Char) : Spelled c (String.utf8EncodeChar c) := by
  have hvalid : c.val.toNat < 0xD800 ∨ 0xDFFF < c.val.toNat ∧ c.val.toNat < 0x110000 := c.valid
  have hback {n : Nat} (h : n = c.val.toNat) : Char.ofNat n = c := by
    rw [h]
    exact Char.ofNat_toNat c
  have htoNat (n : Nat) : (UInt8.ofNat n).toNat = n % 256 := UInt8.toNat_ofNat'
  unfold String.utf8EncodeChar
  dsimp only
  split
  · have h := Spelled.one (b := UInt8.ofNat c.val.toNat) (by rw [htoNat]; omega)
    rwa [hback (by rw [htoNat]; omega)] at h
  · split
    · have h := Spelled.two (b := UInt8.ofNat (c.val.toNat / 64 % 0x20 + 0xC0))
        (x := UInt8.ofNat (c.val.toNat % 0x40 + 0x80))
        (by simp only [htoNat]; omega) (by simp only [Continues, htoNat]; omega)
      rwa [hback (by simp only [htoNat]; omega)] at h
    · split
      · have h := Spelled.three (b := UInt8.ofNat (c.val.toNat / 4096 % 0x10 + 0xE0))
          (x := UInt8.ofNat (c.val.toNat / 64 % 0x40 + 0x80))
          (y := UInt8.ofNat (c.val.toNat % 0x40 + 0x80))
          (by simp only [htoNat]; omega) (by simp only [Continues, htoNat]; omega)
          (by simp only [Continues, htoNat]; omega) (by simp only [htoNat]; omega)
          (by simp only [htoNat]; omega)
        rwa [hback (by simp only [htoNat]; omega)] at h
      · have h := Spelled.four (b := UInt8.ofNat (c.val.toNat / 262144 % 0x08 + 0xF0))
          (x := UInt8.ofNat (c.val.toNat / 4096 % 0x40 + 0x80))
          (y := UInt8.ofNat (c.val.toNat / 64 % 0x40 + 0x80))
          (z := UInt8.ofNat (c.val.toNat % 0x40 + 0x80))
          (by simp only [htoNat]; omega) (by simp only [Continues, htoNat]; omega)
          (by simp only [Continues, htoNat]; omega) (by simp only [Continues, htoNat]; omega)
          (by simp only [htoNat]; omega) (by simp only [htoNat]; omega)
        rwa [hback (by simp only [htoNat]; omega)] at h

/-- A byte below 0x80 is the only one of its character. -/
theorem Spelled.eq_ofNat {c : Char} {bytes : List UInt8} {b : UInt8} (h : Spelled c bytes)
    (hb : b ∈ bytes) (hlow : b.toNat < 0x80) : c = Char.ofNat b.toNat := by
  have hne {d : UInt8} (hd : 0x80 ≤ d.toNat) : b ≠ d := by
    rintro rfl
    omega
  cases h with
  | one => rw [List.mem_singleton.mp hb]
  | @two d x hd hx =>
    have hfirst : b ≠ d := hne (by omega)
    simp [hfirst, hne hx.1] at hb
  | @three d x y hd hx hy =>
    have hfirst : b ≠ d := hne (by omega)
    simp [hfirst, hne hx.1, hne hy.1] at hb
  | @four d x y z hd hx hy hz =>
    have hfirst : b ≠ d := hne (by omega)
    simp [hfirst, hne hx.1, hne hy.1, hne hz.1] at hb

/-- A byte below 0x80 stands for a character of the text. -/
theorem ofNat_mem_of_mem_utf8 {cs : List Char} {b : UInt8} (hb : b ∈ utf8 cs)
    (hlow : b.toNat < 0x80) : Char.ofNat b.toNat ∈ cs := by
  rw [utf8_eq_flatMap] at hb
  obtain ⟨c, hc, hb⟩ := List.mem_flatMap.mp hb
  rwa [← (spelled_encode c).eq_ofNat hb hlow]

/-- What follows a first byte, by the three kinds of characters of more than one byte. -/
theorem leadByte?_eq {b : Nat} (h : b < 256) : leadByte? b =
    if 0xC2 ≤ b ∧ b ≤ 0xDF then some (0x80, 0xBF, 1, b - 0xC0)
    else if 0xE0 ≤ b ∧ b ≤ 0xEF then
      some (if b = 0xE0 then 0xA0 else 0x80, if b = 0xED then 0x9F else 0xBF, 2, b - 0xE0)
    else if 0xF0 ≤ b ∧ b ≤ 0xF4 then
      some (if b = 0xF0 then 0x90 else 0x80, if b = 0xF4 then 0x8F else 0xBF, 3, b - 0xF0)
    else none := by
  revert b
  decide +kernel

/-- Without bytes that are needed, nothing more is read. -/
theorem continuation_zero_iff {low high bits n : Nat} {bytes : List UInt8} :
    continuation low high 0 bits bytes = (0, n) ↔ bits = n := by
  simp [continuation]

/-- All continuation bytes are there just when the first is in its range and the others are. -/
theorem continuation_succ_iff {low high need bits n : Nat} {bytes : List UInt8} :
    continuation low high (need + 1) bits bytes = (need + 1, n) ↔
      ∃ b rest, bytes = b :: rest ∧ low ≤ b.toNat ∧ b.toNat ≤ high ∧
        continuation 0x80 0xBF need (bits * 64 + (b.toNat - 0x80)) rest = (need, n) := by
  cases bytes with
  | nil => simp [continuation]
  | cons b rest =>
    have hexists (P : UInt8 → List UInt8 → Prop) :
        (∃ d more, b :: rest = d :: more ∧ P d more) ↔ P b rest := by
      constructor
      · rintro ⟨_, _, h, hP⟩
        obtain ⟨rfl, rfl⟩ := List.cons.inj h
        exact hP
      · intro hP
        exact ⟨b, rest, rfl, hP⟩
    rw [continuation, hexists]
    by_cases hrange : low ≤ b.toNat ∧ b.toNat ≤ high
    · simp [hrange, Prod.ext_iff]
    · rw [if_neg (by simpa using hrange), ← and_assoc]
      simp [hrange]

/-- A first byte of more than one gives a character just when all its continuation bytes are
there. -/
theorem firstChar_eq_iff {b : UInt8} (hb : 0x80 ≤ b.toNat) {r : List UInt8} {c : Char} {n : Nat} :
    firstChar b r = (some c, n) ↔ ∃ low high need bits m,
      leadByte? b.toNat = some (low, high, need, bits) ∧
        continuation low high need bits r = (need, m) ∧ c = Char.ofNat m ∧ n = need + 1 := by
  rw [firstChar, if_neg (by omega)]
  cases hlead : leadByte? b.toNat with
  | none => simp
  | some lead =>
    obtain ⟨low, high, need, bits⟩ := lead
    simp only [Prod.mk.injEq, Option.ite_none_right_eq_some, Option.some.injEq]
    constructor
    · rintro ⟨⟨hneed, rfl⟩, rfl⟩
      exact ⟨low, high, need, bits, _, ⟨rfl, rfl, rfl, rfl⟩, Prod.ext hneed rfl, rfl,
        congrArg (· + 1) hneed⟩
    · rintro ⟨_, _, _, _, m, ⟨rfl, rfl, rfl, rfl⟩, hm, rfl, rfl⟩
      simp [hm]

/-- The character of a spelling is found wherever bytes start with it. -/
theorem Spelled.firstChar {c : Char} {bytes : List UInt8} (h : Spelled c bytes)
    (rest : List UInt8) : ∃ b r, bytes ++ rest = b :: r ∧
      Text.firstChar b r = (some c, bytes.length) := by
  cases h with
  | one hb => exact ⟨_, _, rfl, by rw [Text.firstChar, if_pos hb]; rfl⟩
  | @two b x hb hx =>
    refine ⟨b, x :: rest, rfl, (firstChar_eq_iff (by omega)).mpr
      ⟨_, _, 1, _, _, by rw [leadByte?_eq b.toNat_lt, if_pos hb], ?_, rfl, rfl⟩⟩
    exact continuation_succ_iff.mpr ⟨x, rest, rfl, hx.1, hx.2, continuation_zero_iff.mpr rfl⟩
  | @three b x y hb hx hy hshortest hscalar =>
    refine ⟨b, x :: y :: rest, rfl, (firstChar_eq_iff (by omega)).mpr
      ⟨_, _, 2, _, _, by rw [leadByte?_eq b.toNat_lt, if_neg (by omega), if_pos hb], ?_, rfl,
        rfl⟩⟩
    obtain ⟨hx, hx'⟩ := hx
    exact continuation_succ_iff.mpr ⟨x, _, rfl, by split <;> omega, by split <;> omega,
      continuation_succ_iff.mpr ⟨y, rest, rfl, hy.1, hy.2, continuation_zero_iff.mpr rfl⟩⟩
  | @four b x y z hb hx hy hz hshortest hlast =>
    refine ⟨b, x :: y :: z :: rest, rfl, (firstChar_eq_iff (by omega)).mpr
      ⟨_, _, 3, _, _, by rw [leadByte?_eq b.toNat_lt, if_neg (by omega), if_neg (by omega),
        if_pos hb], ?_, rfl, rfl⟩⟩
    obtain ⟨hx, hx'⟩ := hx
    exact continuation_succ_iff.mpr ⟨x, _, rfl, by split <;> omega, by split <;> omega,
      continuation_succ_iff.mpr ⟨y, _, rfl, hy.1, hy.2,
        continuation_succ_iff.mpr ⟨z, rest, rfl, hz.1, hz.2, continuation_zero_iff.mpr rfl⟩⟩⟩

/-- A character that is found is spelled by the bytes that it takes. -/
theorem spelled_of_firstChar {b : UInt8} {r : List UInt8} {c : Char} {n : Nat}
    (h : firstChar b r = (some c, n)) : Spelled c ((b :: r).take n) := by
  by_cases hb : b.toNat < 0x80
  · obtain ⟨rfl, rfl⟩ : Char.ofNat b.toNat = c ∧ 1 = n := by simpa [firstChar, hb] using h
    exact .one hb
  · obtain ⟨low, high, need, bits, m, hlead, hm, rfl, rfl⟩ :=
      (firstChar_eq_iff (Nat.le_of_not_lt hb)).mp h
    rw [leadByte?_eq b.toNat_lt] at hlead
    split at hlead
    case isTrue htwo =>
      cases hlead
      obtain ⟨x, rest, rfl, hx, hx', hend⟩ := continuation_succ_iff.mp hm
      obtain rfl := continuation_zero_iff.mp hend
      exact .two htwo ⟨hx, hx'⟩
    case isFalse =>
      split at hlead
      case isTrue hthree =>
        cases hlead
        obtain ⟨x, rest, rfl, hx, hx', hmore⟩ := continuation_succ_iff.mp hm
        obtain ⟨y, rest, rfl, hy, hy', hend⟩ := continuation_succ_iff.mp hmore
        obtain rfl := continuation_zero_iff.mp hend
        have hlow : 0x80 ≤ x.toNat ∧ (b.toNat = 0xE0 → 0xA0 ≤ x.toNat) := by
          split at hx <;> omega
        have hhigh : x.toNat ≤ 0xBF ∧ (b.toNat = 0xED → x.toNat ≤ 0x9F) := by
          split at hx' <;> omega
        exact .three hthree ⟨hlow.1, hhigh.1⟩ ⟨hy, hy'⟩ hlow.2 hhigh.2
      case isFalse =>
        obtain ⟨hfour, hlead⟩ := Option.ite_none_right_eq_some.mp hlead
        cases hlead
        obtain ⟨x, rest, rfl, hx, hx', hmore⟩ := continuation_succ_iff.mp hm
        obtain ⟨y, rest, rfl, hy, hy', hmore⟩ := continuation_succ_iff.mp hmore
        obtain ⟨z, rest, rfl, hz, hz', hend⟩ := continuation_succ_iff.mp hmore
        obtain rfl := continuation_zero_iff.mp hend
        have hlow : 0x80 ≤ x.toNat ∧ (b.toNat = 0xF0 → 0x90 ≤ x.toNat) := by
          split at hx <;> omega
        have hhigh : x.toNat ≤ 0xBF ∧ (b.toNat = 0xF4 → x.toNat ≤ 0x8F) := by
          split at hx' <;> omega
        exact .four hfour ⟨hlow.1, hhigh.1⟩ ⟨hy, hy'⟩ ⟨hz, hz'⟩ hlow.2 hhigh.2

/-- The pieces of the bytes of a text are its characters. -/
theorem pieces_utf8 {limit : Nat} {cs : List Char} (h : (utf8 cs).length ≤ limit) :
    pieces limit (utf8 cs) = cs.map some := by
  induction cs generalizing limit with
  | nil => cases limit <;> rfl
  | cons c rest ih =>
    obtain ⟨b, r, hbytes, hfirst⟩ := (spelled_encode c).firstChar (utf8 rest)
    have hdrop : (b :: r).drop (String.utf8EncodeChar c).length = utf8 rest := by
      rw [← hbytes, List.drop_left]
    have hpositive : 0 < (String.utf8EncodeChar c).length := by
      rw [String.length_utf8EncodeChar]
      exact c.utf8Size_pos
    rw [utf8_cons, List.length_append] at h
    cases limit with
    | zero => omega
    | succ limit =>
      rw [utf8_cons, hbytes, pieces, hfirst]
      dsimp only
      rw [hdrop, ih (by omega), List.map_cons]

/-- Bytes whose pieces are all characters are the bytes of those. -/
theorem eq_utf8_of_pieces {limit : Nat} {bytes : List UInt8} (hlimit : bytes.length ≤ limit)
    (h : (pieces limit bytes).all Option.isSome) :
    bytes = utf8 ((pieces limit bytes).filterMap id) := by
  induction limit generalizing bytes with
  | zero =>
    obtain rfl := List.length_eq_zero_iff.mp (Nat.le_zero.mp hlimit)
    rfl
  | succ limit ih =>
    cases bytes with
    | nil => rfl
    | cons b r =>
      rw [pieces] at h ⊢
      rcases hfirst : firstChar b r with ⟨_ | c, n⟩
      · simp [hfirst] at h
      · have htaken := firstChar_snd b r
        simp only [hfirst, List.all_cons, Option.isSome_some, Bool.true_and] at h htaken ⊢
        have hrest := @ih ((b :: r).drop n)
          (by rw [List.length_drop]; simp only [List.length_cons] at hlimit ⊢; omega) h
        rw [List.filterMap_cons_some (f := id) rfl, utf8_cons, ← hrest,
          ← (spelled_of_firstChar hfirst).eq_encode, List.take_append_drop]

/-- Strict decoding accepts exactly the bytes of texts. -/
theorem decode?_eq_some_iff {bytes : List UInt8} {s : String} :
    decode? bytes = some s ↔ bytes = utf8 s.toList := by
  unfold decode?
  constructor
  · intro h
    obtain ⟨hall, hs⟩ := Option.ite_none_right_eq_some.mp h
    rw [← Option.some.inj hs, String.toList_ofList]
    exact eq_utf8_of_pieces (Nat.le_refl _) hall
  · rintro rfl
    have hpieces := pieces_utf8 (Nat.le_refl (utf8 s.toList).length)
    rw [hpieces, if_pos (by simp)]
    simp

/-- The bytes tell the text. -/
theorem utf8_injective {cs ds : List Char} (h : utf8 cs = utf8 ds) : cs = ds := by
  have hc : decode? (utf8 cs) = some (String.ofList cs) :=
    decode?_eq_some_iff.mpr (by rw [String.toList_ofList])
  have hd : decode? (utf8 cs) = some (String.ofList ds) :=
    decode?_eq_some_iff.mpr (by rw [String.toList_ofList, h])
  rw [hc] at hd
  simpa using congrArg String.toList (Option.some.inj hd)

/-- Lossy decoding loses nothing of a text. -/
theorem decodeLossy_utf8 (cs : List Char) : decodeLossy (utf8 cs) = String.ofList cs := by
  rw [decodeLossy, pieces_utf8 (Nat.le_refl _), List.map_map]
  exact congrArg String.ofList (List.map_id cs)

end ScriptModules.Text

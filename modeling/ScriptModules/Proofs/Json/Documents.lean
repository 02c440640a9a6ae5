import ScriptModules.Proofs.Json.Containers

/-!
# Reading documents

A document is read exactly when it is the tokens of a value with blanks between them, and the value
is the one that the tokens denote. A value ends where a blank, a comma, a closing bracket or the end
of the text comes next.
-/

namespace ScriptModules.Json

open Place (IsBlank)

variable {α : Type} {p q : Place} {more text : List Char} {ts : List Token} {xs : List α}
  {v : Value} {depth : Nat}

/-- What the first character decides when a value is read. -/
theorem readValue_of_digit {c : Char} {rest : List Char} (hrest : p.skipBlanks.rest = c :: rest)
    (hc : c.isDigit = true) :
    readValue .keep (depth + 1) p =
      (readNumber false p.skipBlanks).map fun (n, q) => (.number n, q) := by
  have hne (d : Char) (hd : d.isDigit = false) : c ≠ d := by
    rintro rfl
    rw [hc] at hd
    cases hd
  have hn := hne 'n' rfl
  have ht := hne 't' rfl
  have hf := hne 'f' rfl
  have hminus := hne '-' rfl
  simp [readValue, hrest, hc, hn, ht, hf, hminus]

/-- A bracket opens items, with less depth left for them. -/
theorem readValue_of_bracket {rest : List Char} (hrest : p.skipBlanks.rest = '[' :: rest)
    (hdepth : depth ≠ 0) :
    readValue .keep (depth + 1) p =
      (readItems .keep (readValue .keep depth) (p.skipBlanks.rest.length + 1) true
        p.skipBlanks.next).map fun (items, q) => (.array items, q) := by
  simp [readValue, hrest, hdepth]

/-- A brace opens members, with less depth left for them. -/
theorem readValue_of_brace {rest : List Char} (hrest : p.skipBlanks.rest = '\x7b' :: rest)
    (hdepth : depth ≠ 0) :
    readValue .keep (depth + 1) p =
      (readMembers .keep (insertMember (readValue .keep depth)) (p.skipBlanks.rest.length + 1) true
        [] p.skipBlanks.next).map fun (ms, q) => (.object ms, q) := by
  unfold insertMember
  simp [readValue, hrest, hdepth]

/-- A numeral is read as its number, whatever parts it from what follows. -/
theorem readValue_of_number {n : Numeral} {x : Number} (h : n.Valid) (hx : n.value? = some x)
    (hskip : p.skipBlanks.rest = n.chars ++ more) (hmore : Parted more) :
    ∃ q, readValue .keep (depth + 1) p = .ok (.number x, q) ∧ q.rest = more := by
  have hanswers {p : Place} (hp : p.rest = n.unsigned ++ more) :
      ∃ q, readNumber n.negative p = .ok (x, q) ∧ q.rest = more := by
    have := answers_readNumber h hp (hmore.endsBefore n)
    rwa [hx] at this
  cases hnegative : n.negative with
  | true =>
    have hskip : p.skipBlanks.rest = '-' :: (n.unsigned ++ more) := by
      rw [hskip, Numeral.chars, hnegative]
      rfl
    obtain ⟨q, hq, hrest⟩ := hanswers (Place.rest_next hskip)
    rw [hnegative] at hq
    exact ⟨q, by simp [readValue, hskip, hq, Except.map], hrest⟩
  | false =>
    have hskip : p.skipBlanks.rest = n.unsigned ++ more := by
      rw [hskip, Numeral.chars, hnegative]
      rfl
    obtain ⟨q, hq, hrest⟩ := hanswers hskip
    rw [hnegative] at hq
    obtain ⟨c, ds, hwhole, hc⟩ := h.whole.head
    have hcons : p.skipBlanks.rest = c :: (ds ++ n.tail ++ more) := by
      rw [hskip, Numeral.unsigned, hwhole]
      rfl
    exact ⟨q, by rw [readValue_of_digit hcons hc, hq]; rfl, hrest⟩

/-- A token that is a value by itself is read as that value. -/
theorem readValue_of_single (h : Single ts v) (hlaid : Laid Blanks ts text)
    (hp : p.rest = text ++ more) (hmore : Parted more) :
    ∃ q, readValue .keep (depth + 1) p = .ok (v, q) ∧ q.rest = more := by
  cases h with
  | @word w v hw hv =>
    obtain ⟨behind, hskip, hbehind⟩ := hlaid.rest_skipBlanks (t := .word w) hw hp
    cases hbehind
    have hskip : p.skipBlanks.rest = w.chars ++ more := hskip
    cases w with
    | null =>
      obtain rfl := Option.some.inj hv
      obtain ⟨q, hq, hrest⟩ := readWord_append (Place.rest_next hskip)
      exact ⟨q, by simp [readValue, hskip, Word.chars, hq, Except.map], hrest⟩
    | bool b =>
      obtain rfl := Option.some.inj hv
      cases b with
      | _ =>
        obtain ⟨q, hq, hrest⟩ := readWord_append (Place.rest_next hskip)
        exact ⟨q, by simp [readValue, hskip, Word.chars, hq, Except.map], hrest⟩
    | number n =>
      obtain ⟨x, hx, rfl⟩ := Option.map_eq_some_iff.mp hv
      exact readValue_of_number hw hx hskip hmore
  | @string raw cs hraw =>
    obtain ⟨behind, hskip, hbehind⟩ := hlaid.rest_skipBlanks (t := .string raw) hraw.quoted hp
    cases hbehind
    have hskip : p.skipBlanks.rest = '\x22' :: (raw ++ ['\x22'] ++ more) := hskip
    have hnext : p.skipBlanks.next.rest = raw ++ '\x22' :: more := by
      rw [Place.rest_next hskip]
      simp
    obtain ⟨q, hq, hrest⟩ := readText_of_spells hraw hnext
    exact ⟨q, by simp [readValue, hskip, hq, Except.map], hrest⟩

/-- There are no more items than tokens. -/
theorem Chain.length_le {holds : List Token → α → Prop}
    (hbegins : ∀ ts x, holds ts x → BeginsWell ts) (h : Chain holds ts xs) :
    xs.length ≤ ts.length := by
  induction h with
  | single hx =>
    obtain ⟨t, rest, rfl, -⟩ := hbegins _ _ hx
    simp
  | cons _ _ ih =>
    simp only [List.length_append, List.length_cons]
    omega

/-- There are no more tokens than characters. -/
theorem Laid.length_le (hvalid : AllValid ts) (h : Laid Blanks ts text) :
    ts.length ≤ text.length := by
  induction h with
  | nil => exact Nat.le_refl 0
  | @cons g t ts text _ _ ih =>
    obtain ⟨ht, hts⟩ := List.forall_mem_cons.mp hvalid
    obtain ⟨c, rest, hchars, -⟩ := Token.Valid.head ht
    have := ih hts
    simp only [hchars, List.length_append, List.length_cons]
    omega

/-- As many items as there are fit into a text. -/
theorem Chain.length_lt {holds : List Token → α → Prop} {k : Container}
    (hbegins : ∀ ts x, holds ts x → BeginsWell ts) (hvalid : ∀ ts x, holds ts x → AllValid ts)
    (h : Chain holds ts xs) (hlaid : Laid Blanks (ts ++ [.mark (.closing k)]) text)
    (more : List Char) : xs.length < (text ++ more).length + 1 := by
  have hitems := h.length_le hbegins
  have htokens := hlaid.length_le ((h.allValid hvalid).append allValid_nil.mark)
  rw [List.length_append] at htokens ⊢
  omega

/-- Everything that the grammar gives is read. -/
theorem takes_readValue (depth : Nat) :
    Takes (readValue .keep (depth + 1)) (Denotes .strict depth) := by
  induction depth with
  | zero =>
    intro p ts v text more h hlaid hp hmore
    exact readValue_of_single h hlaid hp hmore
  | succ depth ih =>
    intro p ts v text more h hlaid hp hmore
    rcases h with h | h
    · exact readValue_of_single h hlaid hp hmore
    have hbegins (ts : List Token) (v : Value) (h : Denotes .strict depth ts v) : BeginsWell ts :=
      h.beginsWell
    have hvalid (ts : List Token) (v : Value) (h : Denotes .strict depth ts v) : AllValid ts :=
      h.allValid
    cases h with
    | @array ts vs h =>
      obtain ⟨behind, hskip, hlaid⟩ :=
        hlaid.rest_skipBlanks (t := .mark (.opening .array)) trivial hp
      have hskip : p.skipBlanks.rest = '[' :: (behind ++ more) := hskip
      have hnext := Place.rest_next hskip
      have hread : ∃ q, readItems .keep (readValue .keep (depth + 1))
          (p.skipBlanks.rest.length + 1) true p.skipBlanks.next = .ok (vs, q) ∧ q.rest = more := by
        rcases h.of_strict with ⟨rfl, rfl⟩ | h
        · obtain ⟨g, hg, rfl⟩ := exists_of_laid_last hlaid
          rw [List.append_assoc] at hnext
          exact readItems_close _ _ _ hg hnext
        · -- The reader of items has the length of the text as fuel.
          have hlength := h.length_lt hbegins hvalid hlaid more
          refine readItems_of_chain hbegins ih h hlaid hnext ?_
          rw [hskip, List.length_cons]
          omega
      obtain ⟨q, hq, hrest⟩ := hread
      exact ⟨q, by rw [readValue_of_bracket hskip (Nat.succ_ne_zero _), hq]; rfl, hrest⟩
    | @object ts ms h =>
      obtain ⟨behind, hskip, hlaid⟩ :=
        hlaid.rest_skipBlanks (t := .mark (.opening .object)) trivial hp
      have hskip : p.skipBlanks.rest = '\x7b' :: (behind ++ more) := hskip
      have hnext := Place.rest_next hskip
      have hread : ∃ q, readMembers .keep (insertMember (readValue .keep (depth + 1)))
          (p.skipBlanks.rest.length + 1) true [] p.skipBlanks.next =
            .ok (Members.ofList ms, q) ∧ q.rest = more := by
        rcases h.of_strict with ⟨rfl, rfl⟩ | h
        · obtain ⟨g, hg, rfl⟩ := exists_of_laid_last hlaid
          rw [List.append_assoc] at hnext
          exact readMembers_close _ _ hg hnext
        · have hlength := h.length_lt (fun _ _ h => h.beginsWell)
            (fun _ _ h => h.allValid hvalid) hlaid more
          refine readMembers_of_chain ih h hlaid hnext ?_
          rw [hskip, List.length_cons]
          omega
      obtain ⟨q, hq, hrest⟩ := hread
      exact ⟨q, by rw [readValue_of_brace hskip (Nat.succ_ne_zero _), hq]; rfl, hrest⟩

/-- A token that is read behind blanks. -/
theorem exists_laid_token (t : Token) {p : Place} (hp : p.skipBlanks.rest = t.chars ++ more) :
    ∃ text, Laid Blanks [t] text ∧ p.rest = text ++ more := by
  obtain ⟨⟨g, hg, hrest⟩, -⟩ := exists_blanks p
  exact ⟨g ++ t.chars, .single hg t, by rw [hrest, hp, List.append_assoc]⟩

/-- A container that is read behind blanks. -/
theorem exists_laid_bracketed {k : Container} {p : Place}
    (hp : p.skipBlanks.rest = (Mark.opening k).char :: (text ++ more))
    (hlaid : Laid Blanks (ts ++ [.mark (.closing k)]) text) :
    ∃ text, Laid Blanks (bracketed k ts) text ∧ p.rest = text ++ more := by
  obtain ⟨⟨g, hg, hrest⟩, -⟩ := exists_blanks p
  exact ⟨g ++ (Mark.opening k).char :: text, laid_mark hg hlaid, by rw [hrest, hp]; simp⟩

/-- A value that is read has tokens. -/
def HasTokens (depth : Nat) (p q : Place) (v : Value) : Prop :=
  ∃ ts text, Denotes .strict depth ts v ∧ Laid Blanks ts text ∧ p.rest = text ++ q.rest

/-- A token that is a value is one at any depth and in any style. -/
theorem Single.denotes {style : Style} (h : Single ts v) : Denotes style depth ts v := by
  cases depth with
  | zero => exact h
  | succ depth => exact Or.inl h

/-- A value that is read from one token has that token. -/
theorem hasTokens_of_single {t : Token} (h : Single [t] v)
    (hp : p.skipBlanks.rest = t.chars ++ q.rest) : HasTokens depth p q v := by
  obtain ⟨text, hlaid, hrest⟩ := exists_laid_token t hp
  exact ⟨[t], text, h.denotes, hlaid, hrest⟩

/-- A number that is read has the token of a numeral. -/
theorem hasTokens_of_number {negative : Bool} {p' : Place} {x : Number}
    (h : readNumber negative p' = .ok (x, q))
    (hp : p.skipBlanks.rest = (if negative then ['-'] else []) ++ p'.rest) :
    HasTokens depth p q (.number x) := by
  obtain ⟨n, more, rfl, hvalid, hrest, hmore⟩ := exists_numeral h
  obtain ⟨hx, rfl⟩ := (answers_readNumber hvalid hrest hmore).of_ok h
  refine hasTokens_of_single (t := .word (.number n)) (.word hvalid ?_) ?_
  · simp [Word.value?, hx]
  · rw [hp, hrest]
    simp [Token.chars, Word.chars, Numeral.chars]

/-- A word that is read has its token. -/
theorem hasTokens_of_word {w : Word} {value : Value} {c : Char} {cs : List Char}
    (hvalid : w.Valid) (hvalue : w.value? = some value) (hchars : w.chars = c :: cs)
    (hcons : p.skipBlanks.rest = c :: p.skipBlanks.next.rest)
    (h : (readWord cs p.skipBlanks.next).map (fun q => (value, q)) = .ok (v, q)) :
    HasTokens depth p q v := by
  obtain ⟨q', hq, h⟩ := exists_of_map_eq_ok h
  obtain ⟨rfl, rfl⟩ := Prod.mk.inj h
  refine hasTokens_of_single (t := .word w) (.word hvalid hvalue) ?_
  rw [hcons, rest_of_readWord hq]
  simp [Token.chars, hchars]

/-- A string that is read has its token. -/
theorem hasTokens_of_string {s : String}
    (hcons : p.skipBlanks.rest = '\x22' :: p.skipBlanks.next.rest)
    (h : readText .keep p.skipBlanks.next = .ok (s, q)) : HasTokens depth p q (.string s) := by
  obtain ⟨raw, cs, hraw, rfl, hrest⟩ := exists_of_readText h
  refine hasTokens_of_single (t := .string raw) (.string hraw) ?_
  rw [hcons, hrest]
  simp [Token.chars]

/-- A value that is read has tokens if the values inside it have. -/
theorem hasTokens_of_readValue
    (hbelow : ∀ d, depth = d + 1 → Gives (readValue .keep depth) (Denotes .strict d))
    (h : readValue .keep (depth + 1) p = .ok (v, q)) : HasTokens depth p q v := by
  rw [readValue] at h
  dsimp only at h
  split at h
  · cases h
  rename_i c rest hrest
  have hcons := Place.rest_eq_cons hrest
  -- One case for each first character, in the order in which the reader asks.
  split at h
  · obtain rfl := beq_iff_eq.mp ‹(c == 'n') = true›
    exact hasTokens_of_word (w := .null) trivial rfl rfl hcons h
  split at h
  · obtain rfl := beq_iff_eq.mp ‹(c == 't') = true›
    exact hasTokens_of_word (w := .bool true) trivial rfl rfl hcons h
  split at h
  · obtain rfl := beq_iff_eq.mp ‹(c == 'f') = true›
    exact hasTokens_of_word (w := .bool false) trivial rfl rfl hcons h
  split at h
  · obtain rfl := beq_iff_eq.mp ‹(c == '-') = true›
    obtain ⟨⟨x, q'⟩, hx, h⟩ := exists_of_map_eq_ok h
    obtain ⟨rfl, rfl⟩ := Prod.mk.inj h
    exact hasTokens_of_number hx hcons
  split at h
  · obtain ⟨⟨x, q'⟩, hx, h⟩ := exists_of_map_eq_ok h
    obtain ⟨rfl, rfl⟩ := Prod.mk.inj h
    exact hasTokens_of_number hx rfl
  split at h
  · obtain rfl := beq_iff_eq.mp ‹(c == '\x22') = true›
    obtain ⟨⟨s, q'⟩, hs, h⟩ := exists_of_map_eq_ok h
    obtain ⟨rfl, rfl⟩ := Prod.mk.inj h
    exact hasTokens_of_string hcons hs
  split at h
  · obtain rfl := beq_iff_eq.mp ‹(c == '[') = true›
    split at h
    · cases h
    obtain ⟨d, rfl⟩ := Nat.exists_eq_succ_of_ne_zero ‹_›
    obtain ⟨⟨vs, q'⟩, hvs, h⟩ := exists_of_map_eq_ok h
    obtain ⟨rfl, rfl⟩ := Prod.mk.inj h
    obtain ⟨ts, text, hlaid, hnext, hrow⟩ :=
      exists_of_readItems (fun _ _ h => Denotes.beginsWell h) (hbelow d rfl) hvs
    obtain ⟨all, hall, hp⟩ := exists_laid_bracketed (k := .array) (hnext ▸ hcons) hlaid
    exact ⟨_, all, Or.inr (.array hrow), hall, hp⟩
  split at h
  · obtain rfl := beq_iff_eq.mp ‹(c == '\x7b') = true›
    split at h
    · cases h
    obtain ⟨d, rfl⟩ := Nat.exists_eq_succ_of_ne_zero ‹_›
    obtain ⟨⟨ms, q'⟩, hms, h⟩ := exists_of_map_eq_ok h
    obtain ⟨rfl, rfl⟩ := Prod.mk.inj h
    obtain ⟨ts, ms, text, hlaid, hnext, rfl, hrow⟩ := exists_of_readMembers (hbelow d rfl) hms
    obtain ⟨all, hall, hp⟩ := exists_laid_bracketed (k := .object) (hnext ▸ hcons) hlaid
    exact ⟨_, all, Or.inr (.object hrow), hall, hp⟩
  · cases h

/-- Everything that is read is given by the grammar. -/
theorem gives_readValue (depth : Nat) :
    Gives (readValue .keep (depth + 1)) (Denotes .strict depth) := by
  induction depth with
  | zero => exact hasTokens_of_readValue (fun _ h => absurd h.symm (Nat.succ_ne_zero _))
  | succ depth ih =>
    refine hasTokens_of_readValue fun d hd => ?_
    obtain rfl := Nat.succ.inj hd
    exact ih

/-- How deep the brackets of a document may nest. -/
def nestingLimit : Nat := depthLimit - 1

/-- Only blanks are read as the end of a document. -/
theorem readEnd_eq_ok_iff : readEnd p = .ok () ↔ Blanks p.rest := by
  obtain ⟨⟨g, hg, hp⟩, hnext⟩ := exists_blanks p
  unfold readEnd
  dsimp only
  cases hrest : p.skipBlanks.rest with
  | nil => simpa [hp, hrest] using hg
  | cons c rest =>
    have hc : ¬ IsBlank c := hnext c (by rw [hrest]; rfl)
    have hmem : c ∈ p.rest := by simp [hp, hrest]
    simpa using fun h : Blanks p.rest => hc (h c hmem)

/-- A text is read as a value exactly when it is the tokens of the value, with blanks between and
around them. -/
theorem parse_eq_ok_iff (s : String) (v : Value) :
    parse s = .ok v ↔ ∃ ts text g, Denotes .strict nestingLimit ts v ∧ Laid Blanks ts text ∧
      Blanks g ∧ s.toList = text ++ g := by
  constructor
  · intro h
    obtain ⟨⟨v, p⟩, hv, h⟩ := exists_of_bind_eq_ok h
    obtain ⟨⟨⟩, hend, h⟩ := exists_of_bind_eq_ok h
    obtain rfl := Except.ok.inj h
    obtain ⟨ts, text, hts, hlaid, hrest⟩ := gives_readValue nestingLimit hv
    exact ⟨ts, text, p.rest, hts, hlaid, readEnd_eq_ok_iff.mp hend, hrest⟩
  · rintro ⟨ts, text, g, hts, hlaid, hg, hs⟩
    have hend : Parted [] := nofun
    have hparted : Parted g := by simpa using parted_of_blanks hg hend
    obtain ⟨p, hp, hrest⟩ :=
      takes_readValue nestingLimit (p := Place.ofText s) hts hlaid hs hparted
    have hend := readEnd_eq_ok_iff.mpr (hrest ▸ hg)
    have hvalue : readValue .keep depthLimit (Place.ofText s) = .ok (v, p) := hp
    rw [parse, hvalue]
    simp only [bind, Except.bind, hend, pure, Except.pure]

end ScriptModules.Json

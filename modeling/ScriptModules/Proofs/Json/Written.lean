import ScriptModules.Json.Printer
import ScriptModules.Json.Reader

/-!
# Reading what was written

The readers give back a text that the printer wrote and stop right behind it. Inside a container
something always follows a value: a comma or a closing bracket.
-/

namespace ScriptModules.Json

namespace Place

@[simp] theorem rest_next {p : Place} {c : Char} {more : List Char} (h : p.rest = c :: more) :
    p.next.rest = more := by
  obtain ⟨rest, line, column⟩ := p
  subst h
  simp only [next]
  split <;> rfl

/-- A blank of JSON. -/
def IsBlank (c : Char) : Prop := c = '\n' ∨ c = ' ' ∨ c = '\t' ∨ c = '\r'

/-- There is nothing to step over in front of another character. -/
theorem skipBlanks_of_not_blank {p : Place} {c : Char} {more : List Char}
    (h : p.rest = c :: more) (hc : ¬ IsBlank c) : p.skipBlanks = p := by
  obtain ⟨rest, line, column⟩ := p
  subst h
  simp only [IsBlank, not_or] at hc
  rw [skipBlanks]
  simp [hc]

theorem skipBlanks_of_nil {p : Place} (h : p.rest = []) : p.skipBlanks = p := by
  obtain ⟨rest, line, column⟩ := p
  subst h
  rw [skipBlanks]

end Place

open Place (IsBlank)

/-- What follows a value inside a container. -/
def Ends (more : List Char) : Prop :=
  ∃ c rest, more = c :: rest ∧ (c = ',' ∨ c = ']' ∨ c = '\x7d')

/-- A text that is put together from parts is as long as there are parts. -/
theorem length_le_flatMap {α : Type} {part : α → List Char} (h : ∀ x, part x ≠ [])
    (xs : List α) : xs.length ≤ (xs.flatMap part).length := by
  induction xs with
  | nil => simp
  | cons x rest ih =>
    have hpos := List.length_pos_iff.mpr (h x)
    rw [List.flatMap_cons, List.length_append, List.length_cons]
    omega

/-- A reader that gives back a value from its text and stops behind it. -/
def Reads {α : Type} (read : Place → Except Fault (α × Place)) (text : List Char) (x : α) : Prop :=
  ∀ (p : Place) (more : List Char), p.rest = text ++ more → Ends more →
    ∃ q, read p = .ok (x, q) ∧ q.rest = more

/-- A digit of an escape is read as the value that it is written for. -/
theorem hexValue?_hexDigit {n : Nat} (h : n < 16) : hexValue? (hexDigit n) = some n := by
  have hall : ∀ k < 16, hexValue? (hexDigit k) = some k := by decide
  exact hall n h

/-- Reading the escape of a control character gives it back. -/
theorem readUnicode_control {c : Char} (hc : c.toNat < 0x20) {p : Place} {more : List Char}
    (h : p.rest = ['0', '0', hexDigit (c.toNat / 16), hexDigit (c.toNat % 16)] ++ more) :
    ∃ q, readUnicode .keep p = .ok ([c], q) ∧ q.rest = more := by
  obtain ⟨rest, line, column⟩ := p
  subst h
  have hunit : readUnit ⟨['0', '0', hexDigit (c.toNat / 16), hexDigit (c.toNat % 16)] ++
      more, line, column⟩ = .ok (c.toNat, ⟨more, line, column + 4⟩) := by
    have hzero : hexValue? '0' = some 0 := by decide
    have hsum : 0 * 4096 + 0 * 256 + c.toNat / 16 * 16 + c.toNat % 16 = c.toNat := by
      omega
    simp only [readUnit, List.cons_append, List.nil_append, hzero,
      hexValue?_hexDigit (show c.toNat / 16 < 16 by omega),
      hexValue?_hexDigit (show c.toNat % 16 < 16 by omega), hsum]
  have hhigh : (decide (0xDC00 ≤ c.toNat) && decide (c.toNat ≤ 0xDFFF)) = false := by
    simp; omega
  have hplain : (decide (c.toNat < 0xD800) || decide (c.toNat > 0xDBFF)) = true := by
    simp; omega
  have hback : Char.ofNat c.toNat = c := Char.ofNat_toNat c
  have hkeep : (Care.keep == Care.skim) = false := rfl
  refine ⟨⟨more, line, column + 4⟩, ?_, rfl⟩
  rw [readUnicode, hunit]
  simp only [bind, Except.bind, pure, Except.pure, hkeep, Bool.false_eq_true, if_false, hhigh,
    hplain, if_true, hback]

/-- What stands after the backslash of a short escape. -/
def ShortEscape (e c : Char) : Prop :=
  ∀ (p : Place) (more : List Char), p.rest = e :: more → readEscape .keep p = .ok ([c], p.next)

/-- Characters are written with a short escape, with four digits or as they are. -/
theorem escapeChar_cases (c : Char) :
    (∃ e, escapeChar c = ['\\', e] ∧ ShortEscape e c) ∨
    (escapeChar c =
        ['\\', 'u', '0', '0', hexDigit (c.toNat / 16), hexDigit (c.toNat % 16)] ∧
      c.toNat < 0x20) ∨
    (escapeChar c = [c] ∧ c ≠ '\x22' ∧ c ≠ '\\' ∧ ¬ c.toNat < 0x20) := by
  have short {e : Char} (he : escapeChar c = ['\\', e]) (hread : ShortEscape e c) :
      ∃ e, escapeChar c = ['\\', e] ∧ ShortEscape e c := ⟨e, he, hread⟩
  by_cases hquote : c = '\x22'
  · subst hquote
    exact Or.inl (short rfl fun p more h => by simp [readEscape, h])
  by_cases hslash : c = '\\'
  · subst hslash
    exact Or.inl (short rfl fun p more h => by simp [readEscape, h])
  by_cases hline : c = '\n'
  · subst hline
    exact Or.inl (short rfl fun p more h => by simp [readEscape, h])
  by_cases hreturn : c = '\r'
  · subst hreturn
    exact Or.inl (short rfl fun p more h => by simp [readEscape, h])
  by_cases htab : c = '\t'
  · subst htab
    exact Or.inl (short rfl fun p more h => by simp [readEscape, h])
  by_cases hback : c.toNat = 8
  · obtain rfl : c = Char.ofNat 8 := by rw [← hback]; exact (Char.ofNat_toNat c).symm
    exact Or.inl (short rfl fun p more h => by simp [readEscape, h])
  by_cases hfeed : c.toNat = 12
  · obtain rfl : c = Char.ofNat 12 := by rw [← hfeed]; exact (Char.ofNat_toNat c).symm
    exact Or.inl (short rfl fun p more h => by simp [readEscape, h])
  by_cases hcontrol : c.toNat < 0x20
  · exact Or.inr (Or.inl ⟨by simp [escapeChar, *], hcontrol⟩)
  · exact Or.inr (Or.inr ⟨by simp [escapeChar, *], hquote, hslash, hcontrol⟩)

/-- Reading a written character goes on behind it. -/
theorem readChars_escapeChar {c : Char} {p : Place} {more : List Char}
    (h : p.rest = escapeChar c ++ more) (fuel : Nat) :
    ∃ q, q.rest = more ∧ readChars .keep (fuel + 1) p = (do
      let (cs, r) ← readChars .keep fuel q
      return (c :: cs, r)) := by
  rcases escapeChar_cases c with ⟨e, he, hread⟩ | ⟨he, hcontrol⟩ | ⟨he, hquote, hslash, hplain⟩
  · rw [he] at h
    have hnext : p.next.rest = e :: more := Place.rest_next h
    refine ⟨p.next.next, Place.rest_next hnext, ?_⟩
    simp [readChars, h, hread p.next more hnext, bind, Except.bind]
  · rw [he] at h
    have hnext := Place.rest_next h
    obtain ⟨q, hq, hrest⟩ := readUnicode_control hcontrol (Place.rest_next hnext)
    refine ⟨q, hrest, ?_⟩
    have hescape : readEscape .keep p.next = .ok ([c], q) := by
      simp [readEscape, hnext, hq]
    simp [readChars, h, hescape, bind, Except.bind]
  · rw [he] at h
    refine ⟨p.next, Place.rest_next h, ?_⟩
    have hplain' : ¬ c.val.toNat < 0x20 := hplain
    simp only [readChars, h, List.cons_append]
    rw [if_neg (by simpa using hquote), if_neg (by simpa using hslash), if_neg hplain']

/-- Characters are read as they are written, up to the quote. -/
theorem readChars_written {cs : List Char} {p : Place} {more : List Char}
    (h : p.rest = cs.flatMap escapeChar ++ '\x22' :: more) {fuel : Nat} (hfuel : cs.length < fuel) :
    ∃ q, readChars .keep fuel p = .ok (cs, q) ∧ q.rest = more := by
  induction cs generalizing p fuel with
  | nil =>
    obtain _ | fuel := fuel
    · omega
    · exact ⟨p.next, by simp [readChars, show p.rest = '\x22' :: more from h],
        Place.rest_next h⟩
  | cons c rest ih =>
    obtain _ | fuel := fuel
    · omega
    · rw [List.flatMap_cons, List.append_assoc] at h
      obtain ⟨q, hrest, hread⟩ := readChars_escapeChar h fuel
      obtain ⟨r, hr, hmore⟩ := ih hrest (by simpa using hfuel)
      exact ⟨r, by rw [hread, hr]; rfl, hmore⟩

/-- Every character is written as something. -/
theorem escapeChar_ne_nil (c : Char) : escapeChar c ≠ [] := by
  rcases escapeChar_cases c with ⟨e, he, -⟩ | ⟨he, -⟩ | ⟨he, -⟩ <;> simp [he]

/-- Reading a quoted string, after its opening quote, gives the string. -/
theorem readText_quote {s : String} {p : Place} {more : List Char}
    (h : p.rest = s.toList.flatMap escapeChar ++ '\x22' :: more) :
    ∃ q, readText .keep p = .ok (s, q) ∧ q.rest = more := by
  have hlength : s.toList.length < p.rest.length + 1 := by
    have := length_le_flatMap escapeChar_ne_nil s.toList
    rw [h, List.length_append]
    omega
  obtain ⟨q, hq, hrest⟩ := readChars_written h hlength
  exact ⟨q, by simp [readText, hq, Except.map], hrest⟩

/-- A text that starts an item: it opens with neither a blank nor a closing bracket. -/
def Opens (text : List Char) : Prop :=
  ∃ c rest, text = c :: rest ∧ ¬ IsBlank c ∧ c ≠ ']'

/-- An item may start with a string. -/
theorem opens_quote (s : String) : Opens (quote s) :=
  ⟨'\x22', _, rfl, by simp [IsBlank], by decide⟩

/-- The first item is written before the others, which have commas before them. -/
theorem Value.itemChars_cons (v : Value) (vs : List Value) :
    itemChars (v :: vs) = v.chars ++ vs.flatMap fun w => ',' :: w.chars := by
  induction vs generalizing v with
  | nil => simp [itemChars]
  | cons w rest ih => rw [itemChars, ih, List.flatMap_cons]; rfl

/-- The first member is written before the others, which have commas before them. -/
theorem Value.memberChars_cons (k : String) (v : Value) (ms : List (String × Value)) :
    memberChars ((k, v) :: ms) =
      quote k ++ ':' :: v.chars ++ ms.flatMap fun m => ',' :: (quote m.1 ++ ':' :: m.2.chars) := by
  induction ms generalizing k v with
  | nil => simp [memberChars]
  | cons m rest ih =>
    obtain ⟨k', v'⟩ := m
    rw [memberChars, ih, List.flatMap_cons]
    simp

section Items

variable {α : Type} {item : Place → Except Fault (α × Place)} {write : α → List Char}

/-- The place after an item comes before a comma or the closing bracket. -/
theorem ends_items (xs : List α) (more : List Char) :
    Ends (xs.flatMap (fun x => ',' :: write x) ++ ']' :: more) := by
  cases xs with
  | nil => exact ⟨']', more, rfl, by simp⟩
  | cons x rest => exact ⟨',', _, rfl, by simp⟩

/-- Further items are read as they are written, up to the closing bracket. -/
theorem readItems_rest (hread : ∀ x, Reads item (write x) x) (hopens : ∀ x, Opens (write x))
    (xs : List α) {p : Place} {more : List Char}
    (h : p.rest = xs.flatMap (fun x => ',' :: write x) ++ ']' :: more) {fuel : Nat}
    (hfuel : xs.length < fuel) :
    ∃ q, readItems .keep item fuel false p = .ok (xs, q) ∧ q.rest = more := by
  induction xs generalizing p fuel with
  | nil =>
    obtain _ | fuel := fuel
    · omega
    · have hskip := Place.skipBlanks_of_not_blank h (by simp [IsBlank])
      exact ⟨p.next, by simp [readItems, nextItem, hskip, show p.rest = ']' :: more from h, bind,
        Except.bind, pure, Except.pure], Place.rest_next h⟩
  | cons x rest ih =>
    obtain _ | fuel := fuel
    · omega
    · rw [List.flatMap_cons, List.cons_append, List.cons_append, List.append_assoc] at h
      have hskip := Place.skipBlanks_of_not_blank h (by simp [IsBlank])
      have hnext := Place.rest_next h
      obtain ⟨c, tail, hc, hblank, hclose⟩ := hopens x
      have hskip' := Place.skipBlanks_of_not_blank (by rw [hnext, hc, List.cons_append]) hblank
      obtain ⟨q, hq, hqrest⟩ := hread x p.next _ hnext (ends_items rest more)
      obtain ⟨r, hr, hrrest⟩ := ih hqrest (by simpa using hfuel)
      refine ⟨r, ?_, hrrest⟩
      simp [readItems, nextItem, hskip, h, hskip', hnext, hc, hclose, hq, hr, bind, Except.bind,
        pure, Except.pure]

/-- There are no more items than characters that they are written in. -/
theorem length_le_itemChars (vs : List Value) : vs.length ≤ (Value.itemChars vs).length + 1 := by
  cases vs with
  | nil => simp
  | cons v rest =>
    have hrest : rest.length ≤ (rest.flatMap fun w => ',' :: w.chars).length :=
      length_le_flatMap (by simp) rest
    rw [Value.itemChars_cons, List.length_append, List.length_cons]
    omega

/-- Reading the items of a written array, after its opening bracket, gives the items. -/
theorem readItems_written (hread : ∀ x, Reads item (write x) x) (hopens : ∀ x, Opens (write x))
    {value : α → Value} (hvalue : ∀ x, (value x).chars = write x) (xs : List α) {p : Place}
    {more : List Char} (h : p.rest = Value.itemChars (xs.map value) ++ ']' :: more) {fuel : Nat}
    (hfuel : xs.length < fuel) :
    ∃ q, readItems .keep item fuel true p = .ok (xs, q) ∧ q.rest = more := by
  obtain _ | fuel := fuel
  · omega
  cases xs with
  | nil =>
    have hskip := Place.skipBlanks_of_not_blank h (by simp [IsBlank])
    exact ⟨p.next, by simp [readItems, nextItem, hskip, show p.rest = ']' :: more from h, bind,
      Except.bind, pure, Except.pure], Place.rest_next h⟩
  | cons x rest =>
    rw [List.map_cons, Value.itemChars_cons, List.flatMap_map, hvalue, List.append_assoc] at h
    simp only [hvalue] at h
    obtain ⟨c, tail, hc, hblank, hclose⟩ := hopens x
    have hhead : p.rest =
        c :: (tail ++ (rest.flatMap (fun x => ',' :: write x) ++ ']' :: more)) := by
      rw [h, hc, List.cons_append]
    have hskip := Place.skipBlanks_of_not_blank hhead hblank
    obtain ⟨q, hq, hqrest⟩ := hread x p _ h (ends_items rest more)
    obtain ⟨r, hr, hrrest⟩ := readItems_rest hread hopens rest hqrest (by simpa using hfuel)
    refine ⟨r, ?_, hrrest⟩
    simp [readItems, nextItem, hskip, hhead, hclose, hq, hr, bind, Except.bind, pure, Except.pure]

end Items

section Members

variable {σ : Type} {step : σ → String → Place → Except Fault (σ × Place)}

/-- Reading the members one after another takes what was gathered from `s` to `t`. -/
inductive Gathers (step : σ → String → Place → Except Fault (σ × Place)) :
    List (String × Value) → σ → σ → Prop
  | nil (s : σ) : Gathers step [] s s
  | cons {k : String} {v : Value} {ms : List (String × Value)} {s t u : σ} :
      Reads (step s k) (':' :: v.chars) t → Gathers step ms t u → Gathers step ((k, v) :: ms) s u

/-- Members are gathered one row after the other. -/
theorem Gathers.append {ms ns : List (String × Value)} {s t u : σ} (h : Gathers step ms s t)
    (h' : Gathers step ns t u) : Gathers step (ms ++ ns) s u := by
  induction h with
  | nil => exact h'
  | cons hread _ ih => exact .cons hread (ih h')

/-- One member is gathered by reading its value. -/
theorem Gathers.single {k : String} {v : Value} {s t : σ}
    (h : Reads (step s k) (':' :: v.chars) t) :
    Gathers step [(k, v)] s t :=
  .cons h (.nil t)

/-- The text of further members, each after a comma. -/
def furtherMembers (ms : List (String × Value)) : List Char :=
  ms.flatMap fun m => ',' :: (quote m.1 ++ ':' :: m.2.chars)

theorem furtherMembers_cons (k : String) (v : Value) (ms : List (String × Value)) :
    furtherMembers ((k, v) :: ms) = ',' :: (quote k ++ ':' :: v.chars) ++ furtherMembers ms :=
  List.flatMap_cons

/-- Behind the value of a member come a comma or a closing bracket. -/
theorem ends_members (ms : List (String × Value)) (more : List Char) :
    Ends (furtherMembers ms ++ '\x7d' :: more) := by
  cases ms with
  | nil => exact ⟨'\x7d', more, rfl, by simp⟩
  | cons m rest => exact ⟨',', _, rfl, by simp⟩

/-- Reading a quoted key and its value, with the rest of the members to follow. -/
theorem readText_key {k : String} {v : Value} {p : Place} {more : List Char}
    (h : p.rest = quote k ++ ':' :: v.chars ++ more) {s t : σ}
    (hstep : Reads (step s k) (':' :: v.chars) t) (hends : Ends more) :
    ∃ q r, readText .keep p.next = .ok (k, q) ∧ step s k q = .ok (t, r) ∧ r.rest = more := by
  have hnext : p.next.rest = k.toList.flatMap escapeChar ++ '\x22' :: (':' :: v.chars ++ more) :=
    Place.rest_next (c := '\x22') (by rw [h, quote]; simp)
  obtain ⟨q, hq, hqrest⟩ := readText_quote hnext
  obtain ⟨r, hr, hrrest⟩ := hstep q more hqrest hends
  exact ⟨q, r, hq, hr, hrrest⟩

/-- Further members are read as they are written, up to the closing bracket. -/
theorem readMembers_rest {ms : List (String × Value)} {s t : σ} (h : Gathers step ms s t)
    {p : Place} {more : List Char} (hrest : p.rest = furtherMembers ms ++ '\x7d' :: more)
    {fuel : Nat} (hfuel : ms.length < fuel) :
    ∃ q, readMembers .keep step fuel false s p = .ok (t, q) ∧ q.rest = more := by
  induction h generalizing p fuel with
  | nil s =>
    obtain _ | fuel := fuel
    · omega
    · have hskip := Place.skipBlanks_of_not_blank hrest (by simp [IsBlank])
      exact ⟨p.next, by simp [readMembers, hskip, show p.rest = '\x7d' :: more from hrest],
        Place.rest_next hrest⟩
  | @cons k v ms s t u hstep _ ih =>
    obtain _ | fuel := fuel
    · omega
    · rw [furtherMembers_cons, List.cons_append, List.cons_append] at hrest
      have hskip := Place.skipBlanks_of_not_blank hrest (by simp [IsBlank])
      have hnext := Place.rest_next hrest
      have hskip' := Place.skipBlanks_of_not_blank (p := p.next) (c := '\x22')
        (by rw [hnext, quote]; rfl) (by simp [IsBlank])
      rw [List.append_assoc] at hnext
      obtain ⟨q, r, hq, hr, hrrest⟩ := readText_key hnext hstep (ends_members ms more)
      obtain ⟨e, he, hmore⟩ := ih hrrest (by simpa using hfuel)
      refine ⟨e, ?_, hmore⟩
      simp [readMembers, hskip, hrest, hskip', hnext, quote, hq, hr, he, bind, Except.bind]

/-- There are no more members than characters that they are written in. -/
theorem length_le_memberChars (ms : List (String × Value)) :
    ms.length ≤ (Value.memberChars ms).length + 1 := by
  cases ms with
  | nil => simp
  | cons m rest =>
    have hrest : rest.length ≤
        (rest.flatMap fun m => ',' :: (quote m.1 ++ ':' :: m.2.chars)).length :=
      length_le_flatMap (by simp) rest
    rw [Value.memberChars_cons, List.length_append, List.length_cons]
    omega

/-- Reading the members of a written object, after its opening brace, gathers all of them. -/
theorem readMembers_written {ms : List (String × Value)} {s t : σ} (h : Gathers step ms s t)
    {p : Place} {more : List Char} (hrest : p.rest = Value.memberChars ms ++ '\x7d' :: more)
    {fuel : Nat} (hfuel : ms.length < fuel) :
    ∃ q, readMembers .keep step fuel true s p = .ok (t, q) ∧ q.rest = more := by
  obtain _ | fuel := fuel
  · omega
  cases h with
  | nil s =>
    have hskip := Place.skipBlanks_of_not_blank hrest (by simp [IsBlank])
    exact ⟨p.next, by simp [readMembers, hskip, show p.rest = '\x7d' :: more from hrest],
      Place.rest_next hrest⟩
  | @cons k v ms s t u hstep hms =>
    rw [Value.memberChars_cons, List.append_assoc] at hrest
    have hskip := Place.skipBlanks_of_not_blank (p := p) (c := '\x22')
      (by rw [hrest, quote]; rfl) (by simp [IsBlank])
    obtain ⟨q, r, hq, hr, hrrest⟩ := readText_key hrest hstep (ends_members ms more)
    obtain ⟨e, he, hmore⟩ := readMembers_rest hms hrrest (by simpa using hfuel)
    refine ⟨e, ?_, hmore⟩
    simp [readMembers, hskip, hrest, quote, hq, hr, he, bind, Except.bind]

/-- Reading a written object that is all of a text gathers its members and gets to the end. -/
theorem readMembers_document {ms : List (String × Value)} {s t : σ} (h : Gathers step ms s t)
    {p : Place} (hp : p.rest = (Value.object ms).chars) :
    p.skipBlanks = p ∧ (∃ rest, p.rest = '\x7b' :: rest) ∧
      ∃ q, readMembers .keep step (p.rest.length + 1) true s p.next = .ok (t, q) ∧
        readEnd q = .ok () := by
  rw [Value.chars] at hp
  have hfuel : ms.length < p.rest.length + 1 := by
    have := length_le_memberChars ms
    rw [hp, List.length_cons, List.length_append, List.length_singleton]
    omega
  obtain ⟨q, hq, hrest⟩ := readMembers_written h (Place.rest_next hp) hfuel
  refine ⟨Place.skipBlanks_of_not_blank hp (by simp [IsBlank]), ⟨_, hp⟩, q, hq, ?_⟩
  simp [readEnd, Place.skipBlanks_of_nil hrest, hrest]

end Members

/-- Stepping over the colon in front of a value. -/
theorem readColon_written {p : Place} {text : List Char} (h : p.rest = ':' :: text) :
    readColon p = .ok p.next := by
  simp [readColon, Place.skipBlanks_of_not_blank h (by simp [IsBlank]), h]

end ScriptModules.Json

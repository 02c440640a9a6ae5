import ScriptModules.Proofs.Json.Notation

/-!
# Reading containers

A reader takes what a grammar gives when it reads the tokens, with blanks before each of them, and
gives what the grammar allows when whatever it reads are such tokens. Both carry over from items to
arrays and from values to objects. Behind an item comes a comma with the next one, or the closing
bracket.
-/

namespace ScriptModules.Json

open Place (IsBlank)

variable {α : Type} {p q : Place} {g more text : List Char} {ts us : List Token} {x : α}
  {xs : List α}

/-- Skipping blanks leads to what is no blank. -/
theorem rest_skipBlanks (hg : Blanks g) (hp : p.rest = g ++ more)
    (hmore : ∀ c ∈ more.head?, ¬ IsBlank c) : p.skipBlanks.rest = more := by
  induction g generalizing p with
  | nil =>
    cases more with
    | nil => rw [Place.skipBlanks_of_nil hp, hp]; rfl
    | cons c rest => rw [Place.skipBlanks_of_not_blank hp (hmore c rfl), hp]; rfl
  | cons c g ih =>
    obtain ⟨hc, hrest⟩ := List.forall_mem_cons.mp hg
    obtain ⟨rest, line, column⟩ := p
    obtain rfl : rest = c :: (g ++ more) := hp
    rw [Place.skipBlanks]
    rcases hc with rfl | rfl | rfl | rfl <;> exact ih hrest rfl

/-- What was stepped over are blanks, and none comes next. -/
theorem exists_blanks (p : Place) :
    (∃ g, Blanks g ∧ p.rest = g ++ p.skipBlanks.rest) ∧
      ∀ c ∈ p.skipBlanks.rest.head?, ¬ IsBlank c := by
  fun_induction Place.skipBlanks p with
  | case1 => exact ⟨⟨[], by simp [Blanks], rfl⟩, nofun⟩
  | case2 c r line column hc ih =>
    obtain ⟨⟨g, hg, hrest⟩, hnext⟩ := ih
    obtain rfl := beq_iff_eq.mp hc
    refine ⟨⟨'\n' :: g, List.forall_mem_cons.mpr ⟨Or.inl rfl, hg⟩, ?_⟩, hnext⟩
    rw [List.cons_append, ← hrest]
  | case3 c r line column _ hc ih =>
    obtain ⟨⟨g, hg, hrest⟩, hnext⟩ := ih
    have hblank : IsBlank c := by
      simp only [Bool.or_eq_true, beq_iff_eq, or_assoc] at hc
      exact Or.inr hc
    refine ⟨⟨c :: g, List.forall_mem_cons.mpr ⟨hblank, hg⟩, ?_⟩, hnext⟩
    rw [List.cons_append, ← hrest]
  | case4 c r line column hline hc =>
    refine ⟨⟨[], by simp [Blanks], rfl⟩, ?_⟩
    rintro _ ⟨⟩
    simpa [IsBlank, not_or, and_assoc] using And.intro hline hc

/-- A word is read where it stands. -/
theorem readWord_append {cs : List Char} (hp : p.rest = cs ++ more) :
    ∃ q, readWord cs p = .ok q ∧ q.rest = more := by
  induction cs generalizing p with
  | nil => exact ⟨p, rfl, hp⟩
  | cons c cs ih =>
    obtain ⟨q, hq, hrest⟩ := ih (Place.rest_next hp)
    exact ⟨q, by simp [readWord, hp, hq], hrest⟩

/-- A word that is read stood there. -/
theorem rest_of_readWord {cs : List Char} (h : readWord cs p = .ok q) :
    p.rest = cs ++ q.rest := by
  induction cs generalizing p with
  | nil =>
    obtain rfl := Except.ok.inj h
    rfl
  | cons c cs ih =>
    unfold readWord at h
    split at h
    · cases h
    · rename_i hrest
      split at h
      · rename_i hc
        rw [Place.rest_eq_cons hrest, ih h, beq_iff_eq.mp hc, List.cons_append]
      · cases h

/-- No value goes on with what comes next. -/
def Parted (more : List Char) : Prop :=
  ∀ c ∈ more.head?, IsBlank c ∨ c = ',' ∨ c = ']' ∨ c = '\x7d'

/-- A numeral does not go on with what parts values. -/
theorem Parted.endsBefore (h : Parted more) (n : Numeral) : ∀ c ∈ more.head?, n.EndsBefore c := by
  intro c hc
  have hc := h c hc
  have hdigit : c.isDigit = false := by
    rcases hc with (rfl | rfl | rfl | rfl) | rfl | rfl | rfl <;> rfl
  have hmark : ¬ IsMark c := by
    rintro (rfl | rfl) <;> revert hc <;> simp [IsBlank]
  have hpoint : c ≠ '.' := by
    rintro rfl
    revert hc
    simp [IsBlank]
  exact ⟨hdigit, fun _ => hmark, fun _ _ => hpoint⟩

/-- After blanks, what parts values still does. -/
theorem parted_of_blanks (hg : Blanks g) (h : Parted more) : Parted (g ++ more) := by
  cases g with
  | nil => exact h
  | cons c g =>
    rintro _ ⟨⟩
    exact Or.inl (hg c List.mem_cons_self)

/-- A comma and a closing bracket part values. -/
theorem parted_of_mark {m : Mark} (hm : m = .comma ∨ ∃ k, m = .closing k) :
    Parted (m.char :: more) := by
  rintro _ ⟨⟩
  rcases hm with rfl | ⟨_ | _, rfl⟩ <;> simp [Mark.char]

/-- A reader takes what a grammar gives. -/
def Takes (read : Place → Except Fault (α × Place)) (holds : List Token → α → Prop) : Prop :=
  ∀ {p : Place} {ts : List Token} {x : α} {text more : List Char}, holds ts x →
    Laid Blanks ts text → p.rest = text ++ more → Parted more →
    ∃ q, read p = .ok (x, q) ∧ q.rest = more

/-- A reader gives only what a grammar allows. -/
def Gives (read : Place → Except Fault (α × Place)) (holds : List Token → α → Prop) : Prop :=
  ∀ {p q : Place} {x : α}, read p = .ok (x, q) →
    ∃ ts text, holds ts x ∧ Laid Blanks ts text ∧ p.rest = text ++ q.rest

/-- Stepping over the blanks before a token. -/
theorem Laid.rest_skipBlanks {t : Token} (ht : t.Valid) (h : Laid Blanks (t :: ts) text)
    (hp : p.rest = text ++ more) :
    ∃ behind, p.skipBlanks.rest = t.chars ++ (behind ++ more) ∧ Laid Blanks ts behind := by
  obtain ⟨g, behind, hg, rfl, hlaid⟩ := exists_of_cons h
  obtain ⟨c, rest, hchars, hblank⟩ := ht.head
  refine ⟨behind, ?_, hlaid⟩
  rw [List.append_assoc, List.append_assoc] at hp
  refine Json.rest_skipBlanks hg hp ?_
  rw [hchars]
  rintro _ ⟨⟩
  exact not_isBlank hblank

/-- A token that begins a value starts with no blank, comma or closing bracket. -/
theorem Token.Begins.head {t : Token} (h : t.Begins) (hvalid : t.Valid) :
    ∃ c rest, t.chars = c :: rest ∧ ¬ IsBlank c ∧ c ≠ ',' ∧ c ≠ ']' ∧ c ≠ '\x7d' := by
  cases t with
  | mark m =>
    obtain ⟨k, rfl⟩ := h
    cases k <;> exact ⟨_, _, rfl, by simp [Mark.char, IsBlank]⟩
  | word w =>
    obtain ⟨c, rest, hcons, hall⟩ := Word.Valid.isWordChar hvalid
    have hword : isWordChar c = true := hall c (by rw [hcons]; exact List.mem_cons_self)
    refine ⟨c, rest, hcons, not_isBlank (isBlank_of_isWordChar hword), ?_, ?_, ?_⟩
    all_goals
      rintro rfl
      exact absurd hword (by decide)
  | string raw => exact ⟨_, _, rfl, by simp [IsBlank]⟩

/-- Stepping over the blanks before a value. -/
theorem BeginsWell.rest_skipBlanks (hbegins : BeginsWell ts) (h : Laid Blanks ts text)
    (hp : p.rest = text ++ more) :
    ∃ c rest, ¬ IsBlank c ∧ c ≠ ',' ∧ c ≠ ']' ∧ c ≠ '\x7d' ∧
      p.skipBlanks.rest = c :: (rest ++ more) ∧ Laid Blanks ts (c :: rest) := by
  obtain ⟨t, us, rfl, ht, hvalid⟩ := hbegins
  obtain ⟨behind, hskip, hbehind⟩ := h.rest_skipBlanks hvalid hp
  obtain ⟨c, rest, hchars, hblank, hcomma, hbracket, hbrace⟩ := ht.head hvalid
  refine ⟨c, rest ++ behind, hblank, hcomma, hbracket, hbrace, ?_, ?_⟩
  · rw [hskip, hchars, List.cons_append, List.append_assoc]
  · have hlaid := laid_of_empty_gap (t := t) hbehind
    rwa [hchars, List.cons_append] at hlaid

/-- Blanks and a character that is none. -/
theorem rest_skipBlanks_cons {c : Char} (hg : Blanks g) (hp : p.rest = g ++ c :: more)
    (hc : ¬ IsBlank c) : p.skipBlanks.rest = c :: more :=
  rest_skipBlanks hg hp (by rintro _ ⟨⟩; exact hc)

/-- What stands behind an item is a comma with further items, or the closing bracket. -/
theorem parted_of_laid {m : Mark} (hm : m = .comma ∨ ∃ k, m = .closing k)
    (h : Laid Blanks (.mark m :: ts) text) : Parted (text ++ more) := by
  obtain ⟨g, rest, hg, rfl, -⟩ := h.exists_of_cons
  rw [List.append_assoc]
  exact parted_of_blanks hg (parted_of_mark hm)

section Items

variable {item : Place → Except Fault (α × Place)} {holds : List Token → α → Prop} {fuel : Nat}
  {first : Bool}

/-- Items end with a bracket, after any blanks. -/
theorem readItems_close (item : Place → Except Fault (α × Place)) (fuel : Nat) (first : Bool)
    (hg : Blanks g) (hp : p.rest = g ++ ']' :: more) :
    ∃ q, readItems .keep item (fuel + 1) first p = .ok ([], q) ∧ q.rest = more := by
  have hskip := rest_skipBlanks_cons hg hp (by simp [IsBlank])
  exact ⟨p.skipBlanks.next, by simp [readItems, nextItem, hskip, bind, Except.bind, pure,
    Except.pure], Place.rest_next hskip⟩

/-- Behind an item, a comma leads to the next one. -/
theorem readItems_comma (item : Place → Except Fault (α × Place)) (fuel : Nat)
    (hbegins : BeginsWell us) (hg : Blanks g) (hlaid : Laid Blanks us text)
    (hp : p.rest = g ++ ',' :: (text ++ more)) :
    ∃ q, q.rest = text ++ more ∧
      readItems .keep item (fuel + 1) false p = readItems .keep item (fuel + 1) true q := by
  have hskip := rest_skipBlanks_cons hg hp (by simp [IsBlank])
  have hnext := Place.rest_next hskip
  obtain ⟨c, rest, -, -, hclose, -, hitem, -⟩ := hbegins.rest_skipBlanks hlaid hnext
  exact ⟨p.skipBlanks.next, hnext, by simp [readItems, nextItem, hskip, hitem, hclose]⟩

/-- An item is read before those that follow it. -/
theorem readItems_item (fuel : Nat) (hitem : Takes item holds) (hx : holds us x)
    (hbegins : BeginsWell us) (hlaid : Laid Blanks us text) (hp : p.rest = text ++ more)
    (hmore : Parted more) :
    ∃ q, q.rest = more ∧ readItems .keep item (fuel + 1) true p = (do
      let (xs, r) ← readItems .keep item fuel false q
      return (x :: xs, r)) := by
  obtain ⟨c, rest, -, -, hclose, -, hskip, hlaid⟩ := hbegins.rest_skipBlanks hlaid hp
  obtain ⟨q, hq, hrest⟩ := hitem hx hlaid hskip hmore
  exact ⟨q, hrest, by simp [readItems, nextItem, hskip, hclose, hq, bind, Except.bind]⟩

/-- Reading items takes a chain of them and the closing bracket. -/
theorem readItems_of_chain (hbegins : ∀ ts x, holds ts x → BeginsWell ts)
    (hitem : Takes item holds) (h : Chain holds ts xs)
    (hlaid : Laid Blanks (ts ++ [.mark (.closing .array)]) text)
    (hp : p.rest = text ++ more) (hfuel : xs.length < fuel) :
    ∃ q, readItems .keep item fuel true p = .ok (xs, q) ∧ q.rest = more := by
  induction h generalizing text p fuel with
  | single hx =>
    obtain ⟨fuel, rfl⟩ : ∃ k, fuel = k + 2 := ⟨fuel - 2, by rw [List.length_cons] at hfuel; omega⟩
    obtain ⟨a, b, rfl, ha, hb⟩ := hlaid.exists_of_append
    rw [List.append_assoc] at hp
    obtain ⟨q, hq, hread⟩ := readItems_item (fuel + 1) hitem hx (hbegins _ _ hx) ha hp
      (parted_of_laid (Or.inr ⟨_, rfl⟩) hb)
    obtain ⟨g, hg, rfl⟩ := exists_of_laid_last hb
    rw [List.append_assoc] at hq
    obtain ⟨r, hr, hmore⟩ := readItems_close item fuel false hg hq
    exact ⟨r, by rw [hread, hr]; rfl, hmore⟩
  | @cons us ts x xs hx h ih =>
    obtain ⟨fuel, rfl⟩ : ∃ k, fuel = k + 2 := ⟨fuel - 2, by rw [List.length_cons] at hfuel; omega⟩
    rw [List.append_assoc] at hlaid
    obtain ⟨a, b, rfl, ha, hb⟩ := hlaid.exists_of_append
    rw [List.append_assoc] at hp
    obtain ⟨q, hq, hread⟩ := readItems_item (fuel + 1) hitem hx (hbegins _ _ hx) ha hp
      (parted_of_laid (Or.inl rfl) hb)
    obtain ⟨g, rest, hg, rfl, hrest⟩ := exists_of_laid_mark hb
    rw [List.append_assoc] at hq
    obtain ⟨r, hr, hcomma⟩ := readItems_comma item fuel
      ((h.beginsWell hbegins).append _) hg hrest hq
    obtain ⟨s, hs, hmore⟩ := ih hrest hr (Nat.lt_of_succ_lt_succ hfuel)
    exact ⟨s, by rw [hread, hcomma, hs]; rfl, hmore⟩

/-- Where the next item is found. -/
theorem exists_of_nextItem {next : NextItem} (h : nextItem .keep first p = .ok next) :
    ∃ g, Blanks g ∧ match next with
      | .close r => p.rest = g ++ ']' :: r.next.rest
      | .item r => if first then p.rest = g ++ r.rest
        else ∃ g', Blanks g' ∧ p.rest = g ++ ',' :: (g' ++ r.rest) := by
  obtain ⟨⟨g, hg, hp⟩, -⟩ := exists_blanks p
  refine ⟨g, hg, ?_⟩
  unfold nextItem at h
  dsimp only at h
  split at h
  · cases h
  rename_i hrest
  have hcons := Place.rest_eq_cons hrest
  split at h
  · rename_i hc
    obtain rfl := Except.ok.inj h
    rw [hp, hcons, beq_iff_eq.mp hc]
  split at h
  · rename_i hfirst
    obtain rfl := Except.ok.inj h
    simpa [hfirst] using hp
  rename_i hfirst
  split at h
  · rename_i hc
    split at h
    · cases h
    · split at h
      · cases h
      · obtain rfl := Except.ok.inj h
        obtain ⟨⟨g', hg', hp'⟩, -⟩ := exists_blanks p.skipBlanks.next
        simp only [hfirst, Bool.false_eq_true, if_false]
        exact ⟨g', hg', by rw [hp, hcons, beq_iff_eq.mp hc, hp']⟩
  · cases h

/-- What is read as items is a row of them and the closing bracket. -/
theorem exists_of_readItems (hbegins : ∀ ts x, holds ts x → BeginsWell ts)
    (hitem : Gives item holds) (h : readItems .keep item fuel first p = .ok (xs, q)) :
    ∃ ts text, Laid Blanks (ts ++ [.mark (.closing .array)]) text ∧ p.rest = text ++ q.rest ∧
      if first then Row .strict holds ts xs
      else (ts = [] ∧ xs = []) ∨ ∃ us, ts = .mark .comma :: us ∧ Chain holds us xs := by
  induction fuel generalizing first p xs with
  | zero => cases h
  | succ fuel ih =>
    obtain ⟨next, hnext, h⟩ := exists_of_bind_eq_ok h
    obtain ⟨g, hg, hp⟩ := exists_of_nextItem hnext
    cases next with
    | close r =>
      obtain ⟨rfl, rfl⟩ := Prod.mk.inj (Except.ok.inj h)
      refine ⟨[], g ++ [']'], laid_mark hg .nil, by rw [hp]; simp, ?_⟩
      cases first
      · exact Or.inl ⟨rfl, rfl⟩
      · exact Row.empty
    | item r =>
      obtain ⟨⟨x, p'⟩, hx, h⟩ := exists_of_bind_eq_ok h
      obtain ⟨⟨others, p''⟩, hothers, h⟩ := exists_of_bind_eq_ok h
      obtain ⟨rfl, rfl⟩ := Prod.mk.inj (Except.ok.inj h)
      obtain ⟨us, a, hus, ha, hr⟩ := hitem hx
      obtain ⟨ts, b, hb, hp', hts⟩ := ih hothers
      have hchain : Chain holds (us ++ ts) (x :: others) := by
        rcases hts with ⟨rfl, rfl⟩ | ⟨ts, rfl, hts⟩
        · rw [List.append_nil]
          exact .single hus
        · exact .cons hus hts
      have hlaid : Laid Blanks (us ++ ts ++ [.mark (.closing .array)]) (a ++ b) := by
        rw [List.append_assoc]
        exact ha.append hb
      obtain ⟨t, rest, hcons, -⟩ := (hbegins _ _ hus).append (ts ++ [.mark (.closing .array)])
      rw [List.append_assoc, hcons] at hlaid
      cases first
      · obtain ⟨g', hg', hp⟩ := hp
        refine ⟨.mark .comma :: (us ++ ts), g ++ ',' :: (g' ++ (a ++ b)), ?_, ?_,
          Or.inr ⟨_, rfl, hchain⟩⟩
        · rw [List.cons_append, List.append_assoc, hcons]
          exact laid_mark hg (hlaid.widen hg')
        · rw [hp, hr, hp']
          simp
      · refine ⟨us ++ ts, g ++ (a ++ b), ?_, ?_, Row.chain hchain⟩
        · rw [List.append_assoc, hcons]
          exact hlaid.widen hg
        · have hp : p.rest = g ++ r.rest := hp
          rw [hp, hr, hp']
          simp

end Items

section Members

variable {value : Place → Except Fault (Value × Place)} {holds : List Token → Value → Prop}
  {fuel : Nat} {first : Bool} {s s' ms : Members} {m : String × Value}

/-- Read the value of a key and insert it. -/
def insertMember (value : Place → Except Fault (Value × Place)) (s : Members) (key : String)
    (p : Place) : Except Fault (Members × Place) := do
  let p ← readColon p
  let (v, p) ← value p
  return (s.insert key v, p)

/-- Insert members one after another. -/
def insertEach (s ms : Members) : Members := ms.foldl (fun ms (k, v) => Members.insert k v ms) s

/-- A colon is read after any blanks. -/
theorem readColon_of_rest (hg : Blanks g) (hp : p.rest = g ++ ':' :: more) :
    ∃ q, readColon p = .ok q ∧ q.rest = more := by
  have hskip := rest_skipBlanks_cons hg hp (by simp [IsBlank])
  exact ⟨p.skipBlanks.next, by simp [readColon, hskip], Place.rest_next hskip⟩

/-- A colon that is read stood after blanks. -/
theorem exists_of_readColon (h : readColon p = .ok q) :
    ∃ g, Blanks g ∧ p.rest = g ++ ':' :: q.rest := by
  obtain ⟨⟨g, hg, hp⟩, -⟩ := exists_blanks p
  unfold readColon at h
  dsimp only at h
  split at h
  · cases h
  rename_i hrest
  split at h
  · rename_i hc
    obtain rfl := Except.ok.inj h
    exact ⟨g, hg, by rw [hp, Place.rest_eq_cons hrest, beq_iff_eq.mp hc]⟩
  · cases h

/-- Members end with a brace, after any blanks. -/
theorem readMembers_close (fuel : Nat) (first : Bool) (hg : Blanks g)
    (hp : p.rest = g ++ '\x7d' :: more) :
    ∃ q, readMembers .keep (insertMember value) (fuel + 1) first s p = .ok (s, q) ∧
      q.rest = more := by
  have hskip := rest_skipBlanks_cons hg hp (by simp [IsBlank])
  exact ⟨p.skipBlanks.next, by simp [readMembers, hskip], Place.rest_next hskip⟩

/-- Behind a member, a comma leads to the next one. -/
theorem readMembers_comma (fuel : Nat) {raw : List Char} (hg : Blanks g)
    (hlaid : Laid Blanks (.string raw :: ts) text) (hraw : Quoted raw)
    (hp : p.rest = g ++ ',' :: (text ++ more)) :
    ∃ q, q.rest = text ++ more ∧
      readMembers .keep (insertMember value) (fuel + 1) false s p =
        readMembers .keep (insertMember value) (fuel + 1) true s q := by
  have hskip := rest_skipBlanks_cons hg hp (by simp [IsBlank])
  have hnext := Place.rest_next hskip
  obtain ⟨behind, hkey, -⟩ := hlaid.rest_skipBlanks (t := .string raw) hraw hnext
  have hkey : p.skipBlanks.next.skipBlanks.rest =
      '\x22' :: (raw ++ ['\x22'] ++ (behind ++ more)) := hkey
  exact ⟨p.skipBlanks.next, hnext, by simp [readMembers, hskip, hkey]⟩

/-- A member is read and inserted before those that follow it. -/
theorem readMembers_member (fuel : Nat) (s : Members) (hvalue : Takes value holds)
    (h : Member holds us m) (hlaid : Laid Blanks us text) (hp : p.rest = text ++ more)
    (hmore : Parted more) :
    ∃ q, q.rest = more ∧ readMembers .keep (insertMember value) (fuel + 1) true s p =
      readMembers .keep (insertMember value) fuel false (s.insert m.1 m.2) q := by
  cases h with
  | @mk raw cs ts v hkey hv =>
    obtain ⟨behind, hskip, hbehind⟩ :=
      hlaid.rest_skipBlanks (t := .string raw) hkey.quoted hp
    have hskip : p.skipBlanks.rest = '\x22' :: (raw ++ ['\x22'] ++ (behind ++ more)) := hskip
    have hraw : p.skipBlanks.next.rest = raw ++ '\x22' :: (behind ++ more) := by
      rw [Place.rest_next hskip]
      simp
    obtain ⟨q, hq, hcolon⟩ := readText_of_spells hkey hraw
    obtain ⟨g, rest, hg, rfl, hrest⟩ := exists_of_laid_mark hbehind
    rw [List.append_assoc] at hcolon
    obtain ⟨r, hr, hbefore⟩ := readColon_of_rest hg hcolon
    obtain ⟨e, he, hend⟩ := hvalue hv hrest hbefore hmore
    refine ⟨e, hend, ?_⟩
    simp [readMembers, hskip, hq, insertMember, hr, he, bind, Except.bind, pure, Except.pure]

/-- A row of members starts with a key. -/
theorem Chain.exists_key (h : Chain (Member holds) ts ms) :
    ∃ raw rest, ts = .string raw :: rest ∧ Quoted raw := by
  cases h with
  | single h =>
    cases h with
    | mk hkey => exact ⟨_, _, rfl, hkey.quoted⟩
  | cons h =>
    cases h with
    | mk hkey => exact ⟨_, _, rfl, hkey.quoted⟩

/-- Reading members takes a chain of them and the closing brace. -/
theorem readMembers_of_chain (hvalue : Takes value holds) (h : Chain (Member holds) ts ms)
    (hlaid : Laid Blanks (ts ++ [.mark (.closing .object)]) text)
    (hp : p.rest = text ++ more) (hfuel : ms.length < fuel) :
    ∃ q, readMembers .keep (insertMember value) fuel true s p = .ok (insertEach s ms, q) ∧
      q.rest = more := by
  induction h generalizing text p fuel s with
  | single hm =>
    obtain ⟨fuel, rfl⟩ : ∃ k, fuel = k + 2 := ⟨fuel - 2, by rw [List.length_cons] at hfuel; omega⟩
    obtain ⟨a, b, rfl, ha, hb⟩ := hlaid.exists_of_append
    rw [List.append_assoc] at hp
    obtain ⟨q, hq, hread⟩ := readMembers_member (fuel + 1) s hvalue hm ha hp
      (parted_of_laid (Or.inr ⟨_, rfl⟩) hb)
    obtain ⟨g, hg, rfl⟩ := exists_of_laid_last hb
    rw [List.append_assoc] at hq
    obtain ⟨r, hr, hmore⟩ := readMembers_close fuel false hg hq
    exact ⟨r, by rw [hread, hr]; rfl, hmore⟩
  | @cons us ts m ms hm h ih =>
    obtain ⟨fuel, rfl⟩ : ∃ k, fuel = k + 2 := ⟨fuel - 2, by rw [List.length_cons] at hfuel; omega⟩
    rw [List.append_assoc] at hlaid
    obtain ⟨a, b, rfl, ha, hb⟩ := hlaid.exists_of_append
    rw [List.append_assoc] at hp
    obtain ⟨q, hq, hread⟩ := readMembers_member (fuel + 1) s hvalue hm ha hp
      (parted_of_laid (Or.inl rfl) hb)
    obtain ⟨g, rest, hg, rfl, hrest⟩ := exists_of_laid_mark hb
    rw [List.append_assoc] at hq
    obtain ⟨raw, keys, rfl, hraw⟩ := h.exists_key
    obtain ⟨r, hr, hcomma⟩ := readMembers_comma fuel hg hrest hraw hq
    obtain ⟨e, he, hmore⟩ := ih hrest hr (Nat.lt_of_succ_lt_succ hfuel)
    exact ⟨e, by rw [hread, hcomma, he]; rfl, hmore⟩

/-- Where the next member is found. -/
theorem exists_of_readMembers_succ
    (h : readMembers .keep (insertMember value) (fuel + 1) first s p = .ok (s', q)) :
    ∃ g, Blanks g ∧
      ((s' = s ∧ p.rest = g ++ '\x7d' :: q.rest) ∨
        ∃ r : Place, (if first then p.rest = g ++ '\x22' :: r.rest
            else ∃ g', Blanks g' ∧ p.rest = g ++ ',' :: (g' ++ '\x22' :: r.rest)) ∧
          ∃ key k e t, readText .keep r = .ok (key, k) ∧
            insertMember value s key k = .ok (t, e) ∧
            readMembers .keep (insertMember value) fuel false t e = .ok (s', q)) := by
  obtain ⟨⟨g, hg, hp⟩, -⟩ := exists_blanks p
  refine ⟨g, hg, ?_⟩
  have hmore {r : Place} (h : (readText .keep r >>= fun key =>
      insertMember value s key.1 key.2 >>= fun after =>
        readMembers .keep (insertMember value) fuel false after.1 after.2) = .ok (s', q)) :
      ∃ key k e t, readText .keep r = .ok (key, k) ∧ insertMember value s key k = .ok (t, e) ∧
        readMembers .keep (insertMember value) fuel false t e = .ok (s', q) := by
    obtain ⟨⟨key, k⟩, hkey, h⟩ := exists_of_bind_eq_ok h
    obtain ⟨⟨t, e⟩, ht, h⟩ := exists_of_bind_eq_ok h
    exact ⟨key, k, e, t, hkey, ht, h⟩
  rw [readMembers] at h
  dsimp only at h
  split at h
  · cases h
  rename_i hrest
  have hcons := Place.rest_eq_cons hrest
  split at h
  · rename_i hc
    obtain ⟨rfl, rfl⟩ := Prod.mk.inj (Except.ok.inj h)
    exact Or.inl ⟨rfl, by rw [hp, hcons, beq_iff_eq.mp hc]⟩
  right
  split at h
  · rename_i hfirst
    split at h
    · rename_i hc
      refine ⟨p.skipBlanks.next, ?_, hmore h⟩
      simp only [hfirst, if_true]
      rw [hp, hcons, beq_iff_eq.mp hc]
    · cases h
  rename_i hfirst
  split at h
  · rename_i hc
    split at h
    · cases h
    rename_i hrest'
    split at h
    · rename_i hd
      obtain ⟨⟨g', hg', hp'⟩, -⟩ := exists_blanks p.skipBlanks.next
      refine ⟨p.skipBlanks.next.skipBlanks.next, ?_, hmore h⟩
      simp only [hfirst, Bool.false_eq_true, if_false]
      refine ⟨g', hg', ?_⟩
      rw [hp, hcons, beq_iff_eq.mp hc, hp', Place.rest_eq_cons hrest', beq_iff_eq.mp hd]
    · split at h <;> cases h
  · cases h

/-- A member that is read is a key, a colon and a value. -/
theorem exists_of_member (hvalue : Gives value holds) {r k e : Place} {key : String}
    (hkey : readText .keep r = .ok (key, k)) (h : insertMember value s key k = .ok (s', e)) :
    ∃ us text m, Member holds us m ∧ Laid Blanks us ('\x22' :: text) ∧ s' = s.insert m.1 m.2 ∧
      r.rest = text ++ e.rest := by
  obtain ⟨raw, cs, hraw, rfl, hr⟩ := exists_of_readText hkey
  obtain ⟨k', hcolon, h⟩ := exists_of_bind_eq_ok h
  obtain ⟨⟨v, e'⟩, hv, h⟩ := exists_of_bind_eq_ok h
  obtain ⟨rfl, rfl⟩ := Prod.mk.inj (Except.ok.inj h)
  obtain ⟨g, hg, hk⟩ := exists_of_readColon hcolon
  obtain ⟨us, a, hus, ha, hrest⟩ := hvalue hv
  refine ⟨_, raw ++ '\x22' :: (g ++ ':' :: a), _, .mk hraw hus, ?_, rfl, ?_⟩
  · have hlaid := laid_of_empty_gap (t := .string raw) (laid_mark (m := .colon) hg ha)
    simpa [Token.chars, Mark.char] using hlaid
  · rw [hr, hk, hrest]
    simp

/-- What is read as members is a row of them and the closing brace. -/
theorem exists_of_readMembers (hvalue : Gives value holds)
    (h : readMembers .keep (insertMember value) fuel first s p = .ok (s', q)) :
    ∃ ts ms text, Laid Blanks (ts ++ [.mark (.closing .object)]) text ∧
      p.rest = text ++ q.rest ∧ s' = insertEach s ms ∧
      if first then Row .strict (Member holds) ts ms
      else (ts = [] ∧ ms = []) ∨ ∃ us, ts = .mark .comma :: us ∧ Chain (Member holds) us ms := by
  induction fuel generalizing first p s with
  | zero => cases h
  | succ fuel ih =>
    obtain ⟨g, hg, ⟨rfl, hp⟩ | ⟨r, hp, key, k, e, t, hkey, ht, h⟩⟩ := exists_of_readMembers_succ h
    · refine ⟨[], [], g ++ ['\x7d'], laid_mark hg .nil, by rw [hp]; simp, rfl, ?_⟩
      cases first
      · exact Or.inl ⟨rfl, rfl⟩
      · exact Row.empty
    · obtain ⟨us, a, m, hm, ha, rfl, hr⟩ := exists_of_member hvalue hkey ht
      obtain ⟨ts, ms, b, hb, he, rfl, hts⟩ := ih h
      have hchain : Chain (Member holds) (us ++ ts) (m :: ms) := by
        rcases hts with ⟨rfl, rfl⟩ | ⟨ts, rfl, hts⟩
        · rw [List.append_nil]
          exact .single hm
        · exact .cons hm hts
      have hlaid : Laid Blanks (us ++ ts ++ [.mark (.closing .object)]) ('\x22' :: a ++ b) := by
        rw [List.append_assoc]
        exact ha.append hb
      obtain ⟨first', rest, hcons, -⟩ := hm.beginsWell.append (ts ++ [.mark (.closing .object)])
      rw [List.append_assoc, hcons] at hlaid
      cases first
      · obtain ⟨g', hg', hp⟩ := hp
        refine ⟨.mark .comma :: (us ++ ts), m :: ms, g ++ ',' :: (g' ++ ('\x22' :: a ++ b)),
          ?_, ?_, rfl, Or.inr ⟨_, rfl, hchain⟩⟩
        · rw [List.cons_append, List.append_assoc, hcons]
          exact laid_mark hg (hlaid.widen hg')
        · rw [hp, hr, he]
          simp
      · refine ⟨us ++ ts, m :: ms, g ++ ('\x22' :: a ++ b), ?_, ?_, rfl, Row.chain hchain⟩
        · rw [List.append_assoc, hcons]
          exact hlaid.widen hg
        · have hp : p.rest = g ++ '\x22' :: r.rest := hp
          rw [hp, hr, he]
          simp

end Members

end ScriptModules.Json

import ScriptModules.Proofs.Json.Numerals
import ScriptModules.Proofs.Json.Spelling
import ScriptModules.Text.Blank

/-!
# The notation of JSON

A document is a sequence of tokens with gaps between them. The tokens of a value are given by a
grammar over the depth of its brackets; a style tells which commas it allows that separate nothing.
-/

namespace ScriptModules.Json

open Place (IsBlank)

/-- The values that hold others. -/
inductive Container where
  | array
  | object
  deriving DecidableEq, Repr

/-- Punctuation. -/
inductive Mark where
  | opening (k : Container)
  | closing (k : Container)
  | comma
  | colon
  deriving DecidableEq, Repr

/-- How a mark is written. -/
def Mark.char : Mark → Char
  | .opening .array => '['
  | .opening .object => '\x7b'
  | .closing .array => ']'
  | .closing .object => '\x7d'
  | .comma => ','
  | .colon => ':'

/-- The values that are written without quotes and brackets. -/
inductive Word where
  | null
  | bool (b : Bool)
  | number (n : Numeral)
  deriving DecidableEq, Repr

namespace Word

/-- How a word is written. -/
def chars : Word → List Char
  | .null => ['n', 'u', 'l', 'l']
  | .bool true => ['t', 'r', 'u', 'e']
  | .bool false => ['f', 'a', 'l', 's', 'e']
  | .number n => n.chars

/-- Only a number can be written in a way that is no word. -/
def Valid : Word → Prop
  | .number n => n.Valid
  | _ => True

/-- The value of a word. There is none for a number that is too large. -/
def value? : Word → Option Value
  | .null => some .null
  | .bool b => some (.bool b)
  | .number n => n.value?.map .number

end Word

/-- The parts of a document. -/
inductive Token where
  | mark (m : Mark)
  | word (w : Word)
  /-- A string, as it is spelled between its quotes. -/
  | string (raw : List Char)
  deriving DecidableEq, Repr

namespace Token

/-- How a token is written. -/
def chars : Token → List Char
  | mark m => [m.char]
  | word w => w.chars
  | string raw => '\x22' :: (raw ++ ['\x22'])

/-- Whether what is written is a token: a number is one of JSON, and a string is quoted. -/
def Valid : Token → Prop
  | mark _ => True
  | word w => w.Valid
  | string raw => Quoted raw

/-- A token that a value starts with. -/
def Begins : Token → Prop
  | mark m => ∃ k, m = .opening k
  | _ => True

end Token

/-- The characters of words beside digits. -/
def wordLetters : List Char :=
  ['+', '-', '.', 'E', 'a', 'e', 'f', 'l', 'n', 'r', 's', 't', 'u']

/-- The characters of words. -/
def isWordChar (c : Char) : Bool := c.isDigit || wordLetters.contains c

/-- A digit is a character of words. -/
theorem isWordChar_of_isDigit {c : Char} (h : c.isDigit = true) : isWordChar c = true := by
  simp [isWordChar, h]

/-- A digit is no blank. -/
theorem isBlank_of_isDigit {c : Char} (h : c.isDigit = true) : Text.isBlank c = false := by
  simp only [Char.isDigit, Bool.and_eq_true, decide_eq_true_eq] at h
  have hmin : '0'.toNat ≤ c.val.toNat := UInt32.le_iff_toNat_le.mp h.1
  have hmax : c.val.toNat ≤ '9'.toNat := UInt32.le_iff_toNat_le.mp h.2
  have hzero : '0'.toNat = 0x30 := rfl
  have hnine : '9'.toNat = 0x39 := rfl
  simp only [Text.isBlank, Bool.or_eq_false_iff, Bool.and_eq_false_iff, decide_eq_false_iff_not,
    beq_eq_false_iff_ne]
  omega

/-- A character of words is no blank. -/
theorem isBlank_of_isWordChar {c : Char} (h : isWordChar c = true) : Text.isBlank c = false := by
  have hletters : wordLetters.all (fun c => !Text.isBlank c) = true := rfl
  rcases Bool.or_eq_true_iff.mp h with h | h
  · exact isBlank_of_isDigit h
  · simpa using List.all_eq_true.mp hletters c (List.contains_iff_mem.mp h)

/-- A word is not empty and has only characters of words. -/
theorem Word.Valid.isWordChar {w : Word} (h : w.Valid) :
    ∃ c rest, w.chars = c :: rest ∧ ∀ x ∈ w.chars, isWordChar x = true := by
  cases w with
  | null => exact ⟨_, _, rfl, List.all_eq_true.mp rfl⟩
  | bool b => cases b <;> exact ⟨_, _, rfl, List.all_eq_true.mp rfl⟩
  | number n =>
    have hrun {ds : List Char} (h : IsRun ds) : ∀ c ∈ ds, Json.isWordChar c = true :=
      fun c hc => isWordChar_of_isDigit (h.2 c hc)
    have hexponent : ∀ e ∈ n.exponent?, ∀ c ∈ e.chars, Json.isWordChar c = true := by
      intro e he c hc
      have he := h.exponent e he
      rcases List.mem_cons.mp hc with rfl | hc
      · rcases he.mark with hmark | hmark <;> rw [hmark] <;> decide
      rcases List.mem_append.mp hc with hc | hc
      · rcases he.sign c (Option.mem_toList.mp hc) with rfl | rfl <;> decide
      · exact hrun he.digits c hc
    have hchars : ∀ c ∈ n.chars, Json.isWordChar c = true := by
      intro c hc
      simp only [Numeral.chars, Numeral.unsigned, Numeral.tail, List.mem_append] at hc
      rcases hc with hc | hc | hc | hc
      · split at hc
        · obtain rfl := List.mem_singleton.mp hc
          decide
        · cases hc
      · exact hrun h.whole c hc
      · cases hfraction : n.fraction? with
        | none => simp [hfraction] at hc
        | some ds =>
          simp only [hfraction, Option.map_some, Option.getD_some, List.mem_cons] at hc
          rcases hc with rfl | hc
          · decide
          · exact hrun (h.fraction ds hfraction) c hc
      · cases hraised : n.exponent? with
        | none => simp [hraised] at hc
        | some e =>
          simp only [hraised, Option.map_some, Option.getD_some] at hc
          exact hexponent e hraised c hc
    have hne : n.chars ≠ [] := by
      simp [Numeral.chars, Numeral.unsigned, h.whole.1]
    obtain ⟨c, rest, hcons⟩ := List.exists_cons_of_ne_nil hne
    exact ⟨c, rest, hcons, hchars⟩

/-- A blank of JSON is a blank. -/
theorem isBlank_of_blank {c : Char} (h : IsBlank c) : Text.isBlank c = true := by
  rcases h with rfl | rfl | rfl | rfl <;> decide

/-- What is no blank is no blank of JSON. -/
theorem not_isBlank {c : Char} (h : Text.isBlank c = false) : ¬ IsBlank c :=
  fun hc => by simp [isBlank_of_blank hc] at h

/-- A token starts with a character that is no blank. -/
theorem Token.Valid.head {t : Token} (h : t.Valid) :
    ∃ c rest, t.chars = c :: rest ∧ Text.isBlank c = false := by
  cases t with
  | mark m => exact ⟨_, _, rfl, by rcases m with (_ | _) | (_ | _) | _ | _ <;> decide⟩
  | word w =>
    obtain ⟨c, rest, hcons, hall⟩ := Word.Valid.isWordChar h
    exact ⟨c, rest, hcons, isBlank_of_isWordChar (hall c (by simp [hcons]))⟩
  | string raw => exact ⟨_, _, rfl, by decide⟩

/-- A token ends with a character that is no blank. -/
theorem Token.Valid.last {t : Token} (h : t.Valid) :
    ∃ c, t.chars.getLast? = some c ∧ Text.isBlank c = false := by
  cases t with
  | mark m => exact ⟨_, rfl, by rcases m with (_ | _) | (_ | _) | _ | _ <;> decide⟩
  | word w =>
    obtain ⟨c, rest, hcons, hall⟩ := Word.Valid.isWordChar h
    have hne : w.chars ≠ [] := by simp [hcons]
    exact ⟨_, List.getLast?_eq_some_getLast hne,
      isBlank_of_isWordChar (hall _ (List.getLast_mem hne))⟩
  | string raw => exact ⟨'\x22', List.getLast?_concat (l := '\x22' :: raw), by decide⟩

/-- A text of blanks. -/
def Blanks (g : List Char) : Prop := ∀ c ∈ g, IsBlank c

/-- Tokens in a row, each with a gap before it. -/
inductive Laid (Gap : List Char → Prop) : List Token → List Char → Prop
  | nil : Laid Gap [] []
  | cons {g : List Char} {t : Token} {ts : List Token} {text : List Char} (hgap : Gap g)
    (h : Laid Gap ts text) : Laid Gap (t :: ts) (g ++ (t.chars ++ text))

namespace Laid

variable {Gap : List Char → Prop} {ts us : List Token} {t : Token} {text a b : List Char}

theorem single {g : List Char} (hgap : Gap g) (t : Token) : Laid Gap [t] (g ++ t.chars) := by
  have h : Laid Gap [t] (g ++ (t.chars ++ [])) := cons hgap .nil
  rwa [List.append_nil] at h

/-- The first token stands behind its gap and before the others. -/
theorem exists_of_cons (h : Laid Gap (t :: ts) text) :
    ∃ g rest, Gap g ∧ text = g ++ (t.chars ++ rest) ∧ Laid Gap ts rest := by
  cases h with
  | cons hgap h => exact ⟨_, _, hgap, rfl, h⟩

/-- Tokens that are laid out in two texts are laid out in both together. -/
theorem append (h : Laid Gap ts a) (h' : Laid Gap us b) : Laid Gap (ts ++ us) (a ++ b) := by
  induction h with
  | nil => exact h'
  | cons hgap _ ih =>
    rw [List.append_assoc, List.append_assoc]
    exact .cons hgap ih

/-- Tokens in two parts are laid out in two parts of the text. -/
theorem exists_of_append (h : Laid Gap (ts ++ us) text) :
    ∃ a b, text = a ++ b ∧ Laid Gap ts a ∧ Laid Gap us b := by
  induction ts generalizing text with
  | nil => exact ⟨[], text, rfl, .nil, h⟩
  | cons t ts ih =>
    obtain ⟨g, rest, hgap, rfl, hrest⟩ := exists_of_cons h
    obtain ⟨a, b, rfl, ha, hb⟩ := ih hrest
    exact ⟨g ++ (t.chars ++ a), b, by simp, .cons hgap ha, hb⟩

/-- More blanks may stand before a token. -/
theorem widen {g : List Char} (hg : Blanks g) (h : Laid Blanks (t :: ts) text) :
    Laid Blanks (t :: ts) (g ++ text) := by
  obtain ⟨g', rest, hg', rfl, hrest⟩ := exists_of_cons h
  rw [← List.append_assoc]
  exact .cons (fun c hc => (List.mem_append.mp hc).elim (hg c) (hg' c)) hrest

end Laid

section

variable {ts : List Token} {m : Mark} {g text : List Char}

/-- There may be no gap before a token. -/
theorem laid_of_empty_gap {t : Token} (h : Laid Blanks ts text) :
    Laid Blanks (t :: ts) (t.chars ++ text) :=
  .cons (g := []) (by simp [Blanks]) h

/-- A mark stands behind its gap as one character. -/
theorem laid_mark (hg : Blanks g) (h : Laid Blanks ts text) :
    Laid Blanks (.mark m :: ts) (g ++ m.char :: text) :=
  .cons (t := .mark m) hg h

/-- A mark that is laid out first stands behind blanks. -/
theorem exists_of_laid_mark (h : Laid Blanks (.mark m :: ts) text) :
    ∃ g rest, Blanks g ∧ text = g ++ m.char :: rest ∧ Laid Blanks ts rest :=
  h.exists_of_cons

/-- A mark that is laid out alone stands behind blanks at the end. -/
theorem exists_of_laid_last (h : Laid Blanks [.mark m] text) :
    ∃ g, Blanks g ∧ text = g ++ [m.char] := by
  obtain ⟨g, rest, hg, rfl, hrest⟩ := exists_of_laid_mark h
  cases hrest
  exact ⟨g, hg, rfl⟩

end

/-- The commas that are allowed beside those between two items. -/
structure Style where
  /-- A comma behind the last item. -/
  trailing : Bool
  /-- A comma in a container without items. -/
  lone : Bool

namespace Style

/-- The commas of JSON. -/
def strict : Style := ⟨false, false⟩

/-- Commas behind the last item too. -/
def trailingCommas : Style := ⟨true, false⟩

/-- Any comma before a closing bracket. -/
def loose : Style := ⟨true, true⟩

end Style

/-- A value of one token. -/
inductive Single : List Token → Value → Prop
  | word {w : Word} {v : Value} (h : w.Valid) (hv : w.value? = some v) : Single [.word w] v
  | string {raw cs : List Char} (h : Spells raw cs) :
    Single [.string raw] (.string (String.ofList cs))

/-- A key, a colon and a value. -/
inductive Member (value : List Token → Value → Prop) : List Token → String × Value → Prop
  | mk {raw cs : List Char} {ts : List Token} {v : Value} (hkey : Spells raw cs)
    (h : value ts v) :
    Member value (.string raw :: .mark .colon :: ts) (String.ofList cs, v)

/-- Items with commas between them. -/
inductive Chain {α : Type} (item : List Token → α → Prop) : List Token → List α → Prop
  | single {ts : List Token} {x : α} (h : item ts x) : Chain item ts [x]
  | cons {us ts : List Token} {x : α} {xs : List α} (hx : item us x) (h : Chain item ts xs) :
    Chain item (us ++ .mark .comma :: ts) (x :: xs)

/-- What stands between the brackets of a container. -/
inductive Row {α : Type} (style : Style) (item : List Token → α → Prop) :
    List Token → List α → Prop
  | empty : Row style item [] []
  | lone (h : style.lone = true) : Row style item [.mark .comma] []
  | chain {ts : List Token} {xs : List α} (h : Chain item ts xs) : Row style item ts xs
  | trailing {ts : List Token} {xs : List α} (hstyle : style.trailing = true)
    (h : Chain item ts xs) : Row style item (ts ++ [.mark .comma]) xs

/-- Tokens in brackets. -/
def bracketed (k : Container) (ts : List Token) : List Token :=
  .mark (.opening k) :: (ts ++ [.mark (.closing k)])

/-- A container of values. A key that comes again takes the place of the one before it. -/
inductive Contains (style : Style) (value : List Token → Value → Prop) :
    List Token → Value → Prop
  | array {ts : List Token} {vs : List Value} (h : Row style value ts vs) :
    Contains style value (bracketed .array ts) (.array vs)
  | object {ts : List Token} {ms : Members} (h : Row style (Member value) ts ms) :
    Contains style value (bracketed .object ts) (.object (Members.ofList ms))

/-- The tokens of a value whose brackets nest no deeper than a depth. -/
def Denotes (style : Style) : Nat → List Token → Value → Prop
  | 0, ts, v => Single ts v
  | depth + 1, ts, v => Single ts v ∨ Contains style (Denotes style depth) ts v

section

variable {α : Type} {style : Style} {item : List Token → α → Prop}
  {value : List Token → Value → Prop} {P : List Token → Prop} {ts : List Token} {x : α}
  {xs : List α} {v : Value} {m : String × Value} {depth : Nat}

/-- The first token of a text begins a value. -/
def BeginsWell (ts : List Token) : Prop := ∃ t rest, ts = t :: rest ∧ t.Begins ∧ t.Valid

/-- The last token of a text is no comma. -/
def EndsWell (ts : List Token) : Prop := ts.getLast? ≠ some (.mark .comma)

/-- What begins a value still does when more comes after it. -/
theorem BeginsWell.append (h : BeginsWell ts) (us : List Token) : BeginsWell (ts ++ us) := by
  obtain ⟨t, rest, rfl, ht⟩ := h
  exact ⟨t, rest ++ us, rfl, ht⟩

/-- A token that is a value begins one. -/
theorem Single.beginsWell (h : Single ts v) : BeginsWell ts := by
  cases h with
  | word h => exact ⟨_, _, rfl, trivial, h⟩
  | string h => exact ⟨_, _, rfl, trivial, h.quoted⟩

/-- A container begins with its bracket. -/
theorem Contains.beginsWell (h : Contains style value ts v) : BeginsWell ts := by
  cases h <;> exact ⟨_, _, rfl, ⟨_, rfl⟩, trivial⟩

/-- A value begins with a token that a value begins with. -/
theorem Denotes.beginsWell (h : Denotes style depth ts v) : BeginsWell ts := by
  cases depth with
  | zero => exact Single.beginsWell h
  | succ depth => exact h.elim Single.beginsWell Contains.beginsWell

/-- A member begins with its key. -/
theorem Member.beginsWell (h : Member value ts m) : BeginsWell ts := by
  cases h with
  | mk hkey => exact ⟨_, _, rfl, trivial, hkey.quoted⟩

/-- A row of items begins as its first item does. -/
theorem Chain.beginsWell (hitem : ∀ ts x, item ts x → BeginsWell ts) (h : Chain item ts xs) :
    BeginsWell ts := by
  cases h with
  | single hx => exact hitem _ _ hx
  | cons hx _ => exact (hitem _ _ hx).append _

/-- A token that is a value is no comma. -/
theorem Single.endsWell (h : Single ts v) : EndsWell ts := by
  cases h <;> simp [EndsWell]

/-- Brackets end with the one that closes. -/
theorem endsWell_bracketed (k : Container) (ts : List Token) : EndsWell (bracketed k ts) := by
  rw [EndsWell, bracketed, ← List.cons_append, List.getLast?_concat]
  simp

/-- A container ends with its bracket. -/
theorem Contains.endsWell (h : Contains style value ts v) : EndsWell ts := by
  cases h <;> exact endsWell_bracketed _ _

/-- A value ends with no comma. -/
theorem Denotes.endsWell (h : Denotes style depth ts v) : EndsWell ts := by
  cases depth with
  | zero => exact Single.endsWell h
  | succ depth => exact h.elim Single.endsWell Contains.endsWell

/-- A member ends as its value does. -/
theorem Member.endsWell (hvalue : ∀ ts v, value ts v → BeginsWell ts ∧ EndsWell ts)
    (h : Member value ts m) : EndsWell ts := by
  cases h with
  | mk _ h =>
    obtain ⟨⟨t, rest, rfl, -⟩, hends⟩ := hvalue _ _ h
    simpa [EndsWell] using hends

/-- A row of items ends as its last item does. -/
theorem Chain.endsWell (hitem : ∀ ts x, item ts x → BeginsWell ts ∧ EndsWell ts)
    (h : Chain item ts xs) : EndsWell ts := by
  induction h with
  | single hx => exact (hitem _ _ hx).2
  | @cons us ts x xs hx h ih =>
    obtain ⟨t, rest, rfl, -⟩ := h.beginsWell fun ts x h => (hitem ts x h).1
    simpa [EndsWell, List.getLast?_append] using ih

/-- Without further commas, a container is empty or holds a chain. -/
theorem Row.of_strict (h : Row .strict item ts xs) :
    (ts = [] ∧ xs = []) ∨ Chain item ts xs := by
  cases h with
  | empty => exact Or.inl ⟨rfl, rfl⟩
  | lone h => cases h
  | chain h => exact Or.inr h
  | trailing h => cases h

/-- All tokens of a text are valid. -/
def AllValid (ts : List Token) : Prop := ∀ t ∈ ts, t.Valid

theorem AllValid.append {us : List Token} (h : AllValid ts) (h' : AllValid us) :
    AllValid (ts ++ us) := fun t ht => (List.mem_append.mp ht).elim (h t) (h' t)

theorem AllValid.cons {t : Token} (ht : t.Valid) (h : AllValid ts) : AllValid (t :: ts) :=
  List.forall_mem_cons.mpr ⟨ht, h⟩

theorem AllValid.mark {m : Mark} (h : AllValid ts) : AllValid (.mark m :: ts) :=
  h.cons (t := .mark m) trivial

theorem allValid_nil : AllValid [] := by simp [AllValid]

/-- A token that is a value is valid. -/
theorem Single.allValid (h : Single ts v) : AllValid ts := by
  cases h with
  | word h => exact allValid_nil.cons h
  | string h => exact allValid_nil.cons h.quoted

/-- The tokens of a row are valid if those of its items are. -/
theorem Chain.allValid (hitem : ∀ ts x, item ts x → AllValid ts) (h : Chain item ts xs) :
    AllValid ts := by
  induction h with
  | single hx => exact hitem _ _ hx
  | cons hx _ ih => exact (hitem _ _ hx).append ih.mark

/-- The tokens between brackets are valid if those of the items are, whatever commas are allowed. -/
theorem Row.allValid (hitem : ∀ ts x, item ts x → AllValid ts) (h : Row style item ts xs) :
    AllValid ts := by
  have hcomma : AllValid [.mark .comma] := allValid_nil.mark
  cases h with
  | empty => exact allValid_nil
  | lone => exact hcomma
  | chain h => exact h.allValid hitem
  | trailing _ h => exact (h.allValid hitem).append hcomma

/-- Tokens in brackets are valid if they are without them. -/
theorem AllValid.bracketed (h : AllValid ts) (k : Container) : AllValid (bracketed k ts) :=
  (h.append allValid_nil.mark).mark

/-- The tokens of a member are valid if those of its value are. -/
theorem Member.allValid (hvalue : ∀ ts v, value ts v → AllValid ts) (h : Member value ts m) :
    AllValid ts := by
  cases h with
  | mk hkey h => exact (hvalue _ _ h).mark.cons hkey.quoted

/-- The tokens of a value are valid. -/
theorem Denotes.allValid (h : Denotes style depth ts v) : AllValid ts := by
  induction depth generalizing ts v with
  | zero => exact Single.allValid h
  | succ depth ih =>
    rcases h with h | h
    · exact h.allValid
    · cases h with
      | array h => exact (h.allValid fun _ _ => ih).bracketed .array
      | object h => exact (h.allValid fun _ _ h => h.allValid fun _ _ => ih).bracketed .object

end

end ScriptModules.Json

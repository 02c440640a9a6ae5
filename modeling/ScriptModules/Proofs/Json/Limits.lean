import ScriptModules.Proofs.Json.Documents

/-!
# Limits of reading

By its grammar alone JSON has brackets of any depth, numerals of any size and escapes of any code
units. A document is read exactly when it stays within the limits of the reader: its brackets nest
no deeper than the limit, its numerals are no larger than a double, and its escapes of surrogates
come in pairs.
-/

namespace ScriptModules.Json

variable {α : Type} {raw cs : List Char} {ts : List Token} {depth : Nat} {s : String}

/-- What stands behind a backslash: a letter of a short escape, or the digits of a code unit. -/
inductive Escape : List Char → Prop
  | short {e c : Char} (h : (e, c) ∈ shortEscapes) : Escape [e]
  | unit {ds : List Char} {n : Nat} (h : unitValue? ds = some n) : Escape ('u' :: ds)

/-- What may stand between the quotes of a string. -/
inductive Inside : List Char → Prop
  | nil : Inside []
  | plain {c : Char} {raw : List Char} (hquote : c ≠ '\x22') (hslash : c ≠ '\\')
    (hcontrol : ¬ c.toNat < 0x20) (h : Inside raw) : Inside (c :: raw)
  | escape {e raw : List Char} (he : Escape e) (h : Inside raw) : Inside ('\\' :: (e ++ raw))

/-- The token of a value that holds no others. -/
inductive Atom : List Token → Prop
  | word {w : Word} (h : w.Valid) : Atom [.word w]
  | string {raw : List Char} (h : Inside raw) : Atom [.string raw]

/-- A key, a colon and a value. -/
inductive Entry (value : List Token → Prop) : List Token → Prop
  | mk {raw : List Char} {ts : List Token} (hkey : Inside raw) (h : value ts) :
    Entry value (.string raw :: .mark .colon :: ts)

/-- Items with commas between them, or none. -/
def Items (item : List Token → Prop) (ts : List Token) : Prop :=
  ∃ xs : List Unit, Row .strict (fun ts _ => item ts) ts xs

/-- Brackets around values. -/
inductive Encloses (value : List Token → Prop) : List Token → Prop
  | array {ts : List Token} (h : Items value ts) : Encloses value (bracketed .array ts)
  | object {ts : List Token} (h : Items (Entry value) ts) : Encloses value (bracketed .object ts)

/-- The tokens of a value whose brackets nest no deeper than a depth. -/
def Forms : Nat → List Token → Prop
  | 0, ts => Atom ts
  | depth + 1, ts => Atom ts ∨ Encloses (Forms depth) ts

/-- A text of tokens, with blanks between and around them. -/
def IsText (s : String) (ts : List Token) : Prop :=
  ∃ text g, Laid Blanks ts text ∧ Blanks g ∧ s.toList = text ++ g

/-- A numeral that is not too large, and a string whose surrogates come in pairs. -/
def Token.IsReadable : Token → Prop
  | mark _ => True
  | word w => w.value?.isSome
  | string raw => ∃ cs, Spells raw cs

/-- All tokens can be read. -/
def AllReadable (ts : List Token) : Prop := ∀ t ∈ ts, t.IsReadable

/-- A text of JSON within the limits of reading. -/
def IsReadable (s : String) : Prop :=
  ∃ ts, Forms nestingLimit ts ∧ AllReadable ts ∧ IsText s ts

/-- What spells characters may stand between quotes. -/
theorem Spells.inside (h : Spells raw cs) : Inside raw := by
  induction h with
  | nil => exact .nil
  | plain hquote hslash hcontrol _ ih => exact .plain hquote hslash hcontrol ih
  | escape he _ ih =>
    cases he with
    | short he => exact .escape (.short he) ih
    | unit he => exact .escape (.unit he) ih
    | pair hm _ hn =>
      rw [List.append_assoc]
      exact .escape (.unit hm) (.escape (.unit hn) ih)

/-- Brackets around brackets. -/
def nested : Nat → List Token
  | 0 => bracketed .array []
  | n + 1 => bracketed .array (nested n)

/-- A number that is larger than every double. -/
def tooLarge : String := "1e400"

end ScriptModules.Json

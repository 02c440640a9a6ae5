import ScriptModules.Proofs.Json.Keys
import ScriptModules.Proofs.Json.Limits
import ScriptModules.Transform.JsonModule

/-!
# Modules of JSON documents

A document that is read stands in its module as it is written, so its module has the value of the
document. The named exports are the keys at the top of the document that can name an export, each
once, in the order in which they come first.
-/

namespace ScriptModules

open Json (Value Members Token Blanks Laid AllValid Denotes IsText)

variable {ts : List Token} {text : List Char} {v : Value}

/-- The blanks at the end of a text are what stands behind its last character that is none. -/
theorem Text.trimEnd_append {body g : List Char} (hg : ∀ c ∈ g, isBlank c = true)
    (hlast : ∀ c ∈ body.getLast?, isBlank c = false) : trimEnd (body ++ g) = body := by
  have hg' : ∀ c ∈ g.reverse, isBlank c = true := fun c hc => hg c (List.mem_reverse.mp hc)
  have hbody : body.reverse.dropWhile isBlank = body.reverse := by
    cases hcons : body.reverse with
    | nil => rfl
    | cons c rest =>
      have hc : isBlank c = false := hlast c (by
        rw [← List.head?_reverse, hcons]
        rfl)
      exact List.dropWhile_cons_of_neg (by simp [hc])
  rw [trimEnd, List.reverse_append, List.dropWhile_append_of_pos hg', hbody, List.reverse_reverse]

namespace JsonModule

variable {source document key : String} {path : Path}

/-- The mark that may stand before a document. -/
def mark : Char := '\uFEFF'

/-- A source is a mark and a document, or a document alone. -/
def Holds (source document : String) : Prop :=
  source.toList = mark :: document.toList ∨ source.toList.head? ≠ some mark ∧ document = source

/-- The mark is the character with its number. -/
theorem eq_mark_iff (c : Char) : c = mark ↔ c.val.toNat = 0xFEFF := by
  constructor
  · rintro rfl
    rfl
  · intro h
    exact Char.ext (UInt32.toNat_inj.mp h)

/-- A source holds what is left of it without a mark. -/
theorem holds_iff : Holds source document ↔ document = withoutMark source := by
  unfold Holds withoutMark
  cases hsource : source.toList with
  | nil => simp
  | cons c rest =>
    dsimp only
    by_cases hc : c = mark
    · rw [if_pos (beq_iff_eq.mpr ((eq_mark_iff c).mp hc))]
      simp only [hc, List.cons.injEq, true_and, List.head?_cons, ne_eq, not_true_eq_false,
        false_and, or_false]
      constructor
      · rintro rfl
        exact String.ofList_toList.symm
      · rintro rfl
        exact String.toList_ofList.symm
    · rw [if_neg fun h => hc ((eq_mark_iff c).mpr (beq_iff_eq.mp h))]
      simp [hc]

/-- The characters that a name starts with. -/
def StartsName (c : Char) : Prop := c.isAlpha = true ∨ c = '_' ∨ c = '$'

/-- A name of ASCII characters. -/
def IsName (key : String) : Prop :=
  ∃ c rest, key.toList = c :: rest ∧ StartsName c ∧ ∀ d ∈ rest, StartsName d ∨ d.isDigit = true

/-- The names that the module of a value exports. -/
def names (v : Value) : List String := ((v.members?.getD []).keys).filter isExportable

/-- A document is a text with blanks behind it. -/
structure Embeds (document body : String) : Prop where
  behind : ∃ g, Blanks g ∧ document.toList = body.toList ++ g
  trimmed : ∀ c ∈ body.toList.getLast?, Text.isBlank c = false

/-- The body that is embedded is the document without the blanks at its end. -/
theorem Embeds.trimEnd {body : String} (h : Embeds document body) :
    Text.trimEnd document.toList = body.toList := by
  obtain ⟨g, hg, hdocument⟩ := h.behind
  rw [hdocument]
  exact Text.trimEnd_append (fun c hc => Json.isBlank_of_blank (hg c hc)) h.trimmed

end JsonModule

end ScriptModules

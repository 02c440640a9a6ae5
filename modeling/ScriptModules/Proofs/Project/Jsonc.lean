import ScriptModules.Project.Config
import ScriptModules.Proofs.Json.Documents
import ScriptModules.Proofs.Project.TrailingCommas

/-!
# Reading JSON with comments

Every document of JSON with comments and trailing commas is read as the value that it is written
for. What is read besides is not malformed beyond two things: a block comment at the end that is not
closed, and a comma that is alone in a container.
-/

namespace ScriptModules.Project.Jsonc

open Json (Value Token Container Style Denotes Laid nestingLimit Blanks Trims)

/-- The tokens of a value in a style, with gaps between them and an end behind them. -/
def Written (style : Style) (ends : List Char → Prop) (s : String) (v : Value) : Prop :=
  ∃ ts text rest, Denotes style nestingLimit ts v ∧ Laid Gap ts text ∧ ends rest ∧
    s.toList = text ++ rest

/-- JSON with complete comments, and with commas behind the last item of a container. -/
def IsDocument : String → Value → Prop := Written .trailingCommas LastGap

/-- JSON with comments where the last one need not be closed, and with any comma before a closing
bracket. -/
def IsLoose : String → Value → Prop := Written .loose fun rest => LastGap rest ∨ Unclosed rest

/-- Whether a text ends inside a block comment. -/
def endsInComment (s : String) : Bool := isOpen (endsInside .text s.toList)

/-- Whether a container in a text holds a comma and nothing else. -/
def holdsLoneComma (s : String) : Bool := loneComma .text false (withoutComments .text s.toList)

variable {style : Style} {ends : List Char → Prop} {s : String} {v : Value}

/-- A text is cleaned of its comments first and then of its commas. -/
theorem clean_toList (s : String) :
    (clean s).toList = withoutTrailingCommas .text (withoutComments .text s.toList) := by
  simp [clean]

/-- What is written in any style is read, if only blanks are left of its end. -/
theorem parse_of_written (hends : ∀ rest, ends rest → Blanks (withoutComments .text rest))
    (h : Written style ends s v) : parse s = .ok v := by
  obtain ⟨ts, text, rest, hts, hlaid, hrest, hs⟩ := h
  obtain ⟨left, hleft, hwalks⟩ := exists_walks hlaid hts.allValid
  obtain ⟨us, htrims, hus⟩ := Json.exists_trims_denotes nestingLimit ts v hts
  obtain ⟨trimmed, htrimmed, hout⟩ := exists_of_trims htrims hts.allValid hleft (hends rest hrest)
  refine (Json.parse_eq_ok_iff _ _).mpr ⟨us, trimmed, _, hus, htrimmed, hends rest hrest, ?_⟩
  rw [clean_toList, hs, hwalks.left, hout]

/-- A text is read exactly when it is written in the loose style. -/
theorem parse_eq_ok_iff (s : String) (v : Value) : parse s = .ok v ↔ IsLoose s v := by
  constructor
  · intro h
    obtain ⟨us, trimmed, g, hus, htrimmed, hg, hclean⟩ := (Json.parse_eq_ok_iff _ _).mp h
    rw [clean_toList] at hclean
    obtain ⟨ts, left, htrims, hleft, hvalid, hcomments⟩ :=
      exists_trims_of_withoutTrailingCommas htrimmed hus.allValid hg hclean
    obtain ⟨text, rest, hs, htext, hrest⟩ :=
      exists_laid_of_withoutComments hleft hvalid hg hcomments
    exact ⟨ts, text, rest, Json.denotes_of_trims nestingLimit ts us v htrims hus, htext, hrest, hs⟩
  · exact parse_of_written fun _ hrest => hrest.elim (fun h => h.blanks.1) fun h => h.blanks.1

/-- In what is written for a value, the end decides whether a comment is open, and the tokens
decide whether a comma is alone. -/
theorem scans_of_laid {ts : List Token} {text rest : List Char}
    (hvalid : Json.AllValid ts) (hlaid : Laid Gap ts text)
    (hrest : Blanks (withoutComments .text rest)) (hs : s.toList = text ++ rest) :
    endsInComment s = isOpen (endsInside .text rest) ∧
      holdsLoneComma s = Json.hasLone false ts := by
  obtain ⟨left, hleft, hwalks⟩ := exists_walks hlaid hvalid
  constructor
  · rw [endsInComment, hs, hwalks.after]
  · rw [holdsLoneComma, hs, hwalks.left, loneComma_of_laid hleft hvalid hrest]

/-- The comments of a document are closed, and no comma is alone. -/
theorem IsDocument.complete (h : IsDocument s v) :
    endsInComment s = false ∧ holdsLoneComma s = false := by
  obtain ⟨ts, text, rest, hts, hlaid, hrest, hs⟩ := h
  obtain ⟨hends, hholds⟩ := scans_of_laid hts.allValid hlaid hrest.blanks.1 hs
  have hplain := Json.plain_of_denotes hts false []
  rw [List.append_nil] at hplain
  exact ⟨hends.trans hrest.blanks.2, hholds.trans hplain⟩

/-- A text in the loose style whose comments are closed and whose commas are not alone is a
document. -/
theorem IsLoose.isDocument (h : IsLoose s v) (hclosed : endsInComment s = false)
    (hcommas : holdsLoneComma s = false) : IsDocument s v := by
  obtain ⟨ts, text, rest, hts, hlaid, hrest, hs⟩ := h
  have hblanks : Blanks (withoutComments .text rest) :=
    hrest.elim (fun h => h.blanks.1) fun h => h.blanks.1
  obtain ⟨hends, hholds⟩ := scans_of_laid hts.allValid hlaid hblanks hs
  refine ⟨ts, text, rest, ?_, hlaid, ?_, hs⟩
  · exact (Json.denotes_trailingCommas_iff hts).mpr (hholds.symm.trans hcommas)
  · refine hrest.resolve_right fun hopen => ?_
    rw [hends, hopen.blanks.2] at hclosed
    cases hclosed

/-- The text of a configuration is read as the only value that it is written for in the loose style.
It is a document of JSON with comments exactly when it does not end inside a comment and no
container in it holds a comma and nothing else. All other texts are told to be malformed. -/
theorem parseText_sound (path : Path) (content : String) :
    (∃ v, parseText path content = .ok v ∧ (∀ w, IsLoose content w ↔ w = v) ∧
      (IsDocument content v ↔
        endsInComment content = false ∧ holdsLoneComma content = false)) ∨
    ∃ cause, parseText path content = .error (.parse path cause) ∧ ∀ v, ¬ IsLoose content v := by
  cases h : parse content with
  | ok v =>
    have hloose := (parse_eq_ok_iff content v).mp h
    refine Or.inl ⟨v, by rw [parseText, h]; rfl, fun w => ?_, IsDocument.complete,
      fun ⟨hclosed, hcommas⟩ => hloose.isDocument hclosed hcommas⟩
    rw [← parse_eq_ok_iff, h]
    exact ⟨fun hw => (Except.ok.inj hw).symm, fun hw => by rw [hw]⟩
  | error cause =>
    refine Or.inr ⟨cause, by rw [parseText, h]; rfl, fun v hv => ?_⟩
    rw [← parse_eq_ok_iff, h] at hv
    cases hv

/-- Texts are read that are malformed: a block comment is not closed, or a comma is alone. -/
theorem parseText_malformed :
    (parseText ⟨"/project/tsconfig.json"⟩ "\x7b\x7d /* " = .ok (.object []) ∧
      ∀ v, ¬ IsDocument "\x7b\x7d /* " v) ∧
    (parseText ⟨"/project/tsconfig.json"⟩ "\x7b,\x7d" = .ok (.object []) ∧
      ∀ v, ¬ IsDocument "\x7b,\x7d" v) := by
  have hread {content : String} (h : IsLoose content (.object [])) :
      parseText ⟨"/project/tsconfig.json"⟩ content = .ok (.object []) := by
    rw [parseText, (parse_eq_ok_iff _ _).mpr h]
    rfl
  refine ⟨⟨hread ?_, fun v h => ?_⟩, hread ?_, fun v h => ?_⟩
  · refine ⟨Json.bracketed .object [], ['\x7b', '\x7d'], [' ', '/', '*', ' '],
      Or.inr (.object .empty), .cons (g := []) .nil (.cons (g := []) .nil .nil),
      Or.inr (.block (.blank (Or.inr (Or.inl rfl)) .nil) (by decide)), by decide⟩
  · exact absurd h.complete.1 (by decide)
  · refine ⟨Json.bracketed .object [.mark .comma], ['\x7b', ',', '\x7d'], [],
      Or.inr (.object (.lone rfl)),
      .cons (g := []) .nil (.cons (g := []) .nil (.cons (g := []) .nil .nil)),
      Or.inl (.gap .nil), by decide⟩
  · exact absurd h.complete.2 (by decide)

end ScriptModules.Project.Jsonc

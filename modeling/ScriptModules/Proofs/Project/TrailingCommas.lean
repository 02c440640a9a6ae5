import ScriptModules.Proofs.Json.Styles
import ScriptModules.Proofs.Project.Comments
import ScriptModules.Proofs.Text.Split

/-!
# Commas before closing brackets

Taking commas out of a text takes them out of its tokens: the tokens with blanks between them
become the trimmed ones, and nothing else becomes these.
-/

namespace ScriptModules.Project.Jsonc

open Json (Container Token Mark Word Quoted Blanks Laid AllValid isWordChar Trims closesFirst
  hasLone)
open Json.Place (IsBlank)

variable {ts us : List Token} {text s out b g : List Char}

/-- Taking out commas leaves strings as they are. -/
theorem keepsStrings_withoutTrailingCommas : KeepsStrings withoutTrailingCommas where
  nil := ⟨rfl, rfl⟩
  opens r := by simp [withoutTrailingCommas]
  string c r := by rw [withoutTrailingCommas]
  escape c r := by rw [withoutTrailingCommas]

/-- The character of a closing bracket comes next behind blanks of any script. -/
theorem closesNext_iff (s : List Char) : closesNext s = true ↔
    ∃ g k r, (∀ c ∈ g, Text.isBlank c = true) ∧ s = g ++ (Mark.closing k).char :: r := by
  have hclosing (c : Char) : (c == '\x7d' || c == ']') = true ↔ ∃ k, c = (Mark.closing k).char := by
    constructor
    · intro h
      rcases Bool.or_eq_true_iff.mp h with h | h
      · exact ⟨.object, beq_iff_eq.mp h⟩
      · exact ⟨.array, beq_iff_eq.mp h⟩
    · rintro ⟨_ | _, rfl⟩ <;> decide
  have hfront := List.takeWhile_append_dropWhile (p := Text.isBlank) (l := s)
  have hblanks : ∀ c ∈ s.takeWhile Text.isBlank, Text.isBlank c = true :=
    fun c hc => List.mem_takeWhile_imp hc
  constructor
  · intro h
    unfold closesNext at h
    split at h
    · rename_i c r hrest
      obtain ⟨k, rfl⟩ := (hclosing c).mp h
      exact ⟨_, k, r, hblanks, by rw [← hrest, hfront]⟩
    · cases h
  · rintro ⟨g, k, r, hg, rfl⟩
    have hdrop : (g ++ (Mark.closing k).char :: r).dropWhile Text.isBlank =
        (Mark.closing k).char :: r := by
      rw [Text.dropWhile_append_of_head, List.dropWhile_eq_nil_iff.mpr hg, List.nil_append]
      rintro _ ⟨⟩
      cases k <;> decide
    rw [closesNext, hdrop]
    exact (hclosing _).mpr ⟨k, rfl⟩

/-- The blanks of JSON are blanks. -/
theorem isBlank_of_blanks (hg : Blanks g) : ∀ c ∈ g, Text.isBlank c = true :=
  fun c hc => Json.isBlank_of_blank (hg c hc)

/-- A token that starts with a closing bracket is one. -/
theorem eq_closing_of_head {t : Token} {k : Container} {rest : List Char} (ht : t.Valid)
    (h : t.chars = (Mark.closing k).char :: rest) : t = .mark (.closing k) := by
  cases t with
  | mark m =>
    have hchar : m.char = (Mark.closing k).char := List.head_eq_of_cons_eq h
    rcases m with (_ | _) | (_ | _) | _ | _ <;> cases k <;> first | rfl | cases hchar
  | word w =>
    obtain ⟨_, _, -, hall⟩ := Word.Valid.isWordChar ht
    have hword := hall (Mark.closing k).char (by
      rw [show w.chars = _ from h]
      exact List.mem_cons_self)
    cases k <;> cases hword
  | string raw =>
    have hchar : '\x22' = (Mark.closing k).char := List.head_eq_of_cons_eq h
    cases k <;> cases hchar

/-- A closing bracket is no blank. -/
theorem isBlank_closing (k : Container) : Text.isBlank (Mark.closing k).char = false := by
  cases k <;> decide

/-- In front of tokens, a closing bracket comes next when it is the first token. -/
theorem closesNext_of_laid (hlaid : Laid Blanks ts text) (hvalid : AllValid ts) (hb : Blanks b) :
    closesNext (text ++ b) = closesFirst ts := by
  rw [Bool.eq_iff_iff, closesNext_iff]
  cases hlaid with
  | nil =>
    refine ⟨?_, nofun⟩
    rintro ⟨g, k, r, -, rfl⟩
    have hclosing := isBlank_of_blanks hb (Mark.closing k).char (by simp)
    rw [isBlank_closing] at hclosing
    cases hclosing
  | @cons g t ts text hg _ =>
    obtain ⟨ht, -⟩ := List.forall_mem_cons.mp hvalid
    obtain ⟨c, chars, hchars, hc⟩ := Token.Valid.head ht
    constructor
    · rintro ⟨g', k, r, hg', h⟩
      rw [List.append_assoc, hchars] at h
      obtain ⟨-, hrest⟩ := append_inj_of_front (P := fun c => Text.isBlank c = true) h
        (isBlank_of_blanks hg) (by rintro _ ⟨⟩; simp [hc]) hg'
        (by rintro _ ⟨⟩; simp [isBlank_closing])
      obtain ⟨rfl, -⟩ := List.cons.inj hrest
      rw [eq_closing_of_head ht hchars]
      rfl
    · intro h
      obtain ⟨k, rfl⟩ : ∃ k, t = .mark (.closing k) := by
        rcases t with (_ | k | _ | _) | _ | _ <;> first | exact ⟨k, rfl⟩ | cases h
      exact ⟨g, k, text ++ b, isBlank_of_blanks hg, by simp [Token.chars]⟩

/-- A character is left, unless it is a comma before a closing bracket. -/
theorem withoutTrailingCommas_char {c : Char} {r : List Char}
    (h : c = ',' → closesNext r = false) :
    withoutTrailingCommas .text (c :: r) =
      c :: withoutTrailingCommas (if c = '\x22' then .string else .text) r := by
  have hcomma : (c == ',' && closesNext r) = false := by simpa using h
  rw [withoutTrailingCommas, hcomma]
  · by_cases hquote : c = '\x22' <;> simp [hquote]
  all_goals simp

/-- Characters that are no quotes and no commas are left. -/
theorem withoutTrailingCommas_plain {w : List Char} (hw : ∀ c ∈ w, c ≠ '\x22' ∧ c ≠ ',')
    (s : List Char) :
    withoutTrailingCommas .text (w ++ s) = w ++ withoutTrailingCommas .text s := by
  induction w with
  | nil => rfl
  | cons c w ih =>
    obtain ⟨⟨hquote, hcomma⟩, hw⟩ := List.forall_mem_cons.mp hw
    rw [List.cons_append, withoutTrailingCommas_char fun h => absurd h hcomma, if_neg hquote, ih hw,
      List.cons_append]

/-- A token is left, unless it is a comma before a closing bracket. -/
theorem withoutTrailingCommas_token {t : Token} (ht : t.Valid)
    (hcomma : t = .mark .comma → closesNext s = false) :
    withoutTrailingCommas .text (t.chars ++ s) = t.chars ++ withoutTrailingCommas .text s := by
  cases t with
  | mark m =>
    have hquote : m.char ≠ '\x22' := by rcases m with (_ | _) | (_ | _) | _ | _ <;> decide
    have hchar : m.char = ',' → closesNext s = false := by
      intro h
      refine hcomma ?_
      rcases m with (_ | _) | (_ | _) | _ | _ <;> first | rfl | cases h
    have hstep := withoutTrailingCommas_char hchar
    rwa [if_neg hquote] at hstep
  | word w =>
    obtain ⟨_, _, -, hall⟩ := Word.Valid.isWordChar ht
    refine withoutTrailingCommas_plain (fun c hc => ⟨?_, ?_⟩) s <;>
      (rintro rfl; exact absurd (hall _ hc) (by decide))
  | string raw =>
    have hkeeps := keepsStrings_withoutTrailingCommas.append ht s
    have htext : (Token.string raw).chars ++ s = '\x22' :: (raw ++ '\x22' :: s) := by
      simp [Token.chars]
    rw [htext, keepsStrings_withoutTrailingCommas.opens, hkeeps]
    simp [Token.chars]

/-- Blanks are left. -/
theorem withoutTrailingCommas_blanks (hg : Blanks g) (s : List Char) :
    withoutTrailingCommas .text (g ++ s) = g ++ withoutTrailingCommas .text s :=
  withoutTrailingCommas_plain
    (fun _ hc => ⟨(ne_of_isBlank (hg _ hc)).1, (ne_of_isBlank (hg _ hc)).2.2⟩) s

/-- A comma in front of a closing bracket is taken out, and what stands between them stays. -/
theorem withoutTrailingCommas_drop {k : Container} {r : List Char}
    (hg : ∀ c ∈ g, Text.isBlank c = true) :
    withoutTrailingCommas .text (',' :: (g ++ (Mark.closing k).char :: r)) =
      g ++ (Mark.closing k).char :: withoutTrailingCommas .text r := by
  have hcloses : closesNext (g ++ (Mark.closing k).char :: r) = true :=
    (closesNext_iff _).mpr ⟨g, k, r, hg, rfl⟩
  have hplain : ∀ c ∈ g, c ≠ '\x22' ∧ c ≠ ',' := by
    intro c hc
    have hblank := hg c hc
    constructor <;> (rintro rfl; exact absurd hblank (by decide))
  have hmark := withoutTrailingCommas_token (t := .mark (.closing k)) (s := r) trivial (by simp)
  have hmark : withoutTrailingCommas .text ((Mark.closing k).char :: r) =
    (Mark.closing k).char :: withoutTrailingCommas .text r := hmark
  rw [← hmark, ← withoutTrailingCommas_plain hplain, withoutTrailingCommas]
  · simp [hcloses]
  all_goals simp

/-- Taking commas out of a text takes them out of its tokens. -/
theorem exists_of_trims (h : Trims ts us) (hvalid : AllValid ts) (hlaid : Laid Blanks ts text)
    (hb : Blanks b) :
    ∃ left, Laid Blanks us left ∧ withoutTrailingCommas .text (text ++ b) = left ++ b := by
  induction h generalizing text with
  | nil =>
    cases hlaid
    have hblanks := withoutTrailingCommas_blanks hb []
    rw [List.append_nil] at hblanks
    exact ⟨[], .nil, by simpa [withoutTrailingCommas] using hblanks⟩
  | @keep t ts us hkeep h ih =>
    obtain ⟨ht, hts⟩ := List.forall_mem_cons.mp hvalid
    obtain ⟨g, rest, hg, rfl, hrest⟩ := hlaid.exists_of_cons
    obtain ⟨left, hleft, hout⟩ := ih hts hrest
    have hcomma : t = .mark .comma → closesNext (rest ++ b) = false :=
      fun h => (closesNext_of_laid hrest hts hb).trans (hkeep h)
    refine ⟨g ++ (t.chars ++ left), .cons hg hleft, ?_⟩
    rw [List.append_assoc, List.append_assoc, withoutTrailingCommas_blanks hg,
      withoutTrailingCommas_token ht hcomma, hout]
    simp
  | @drop k ts us h ih =>
    obtain ⟨-, hvalid⟩ := List.forall_mem_cons.mp hvalid
    obtain ⟨-, hts⟩ := List.forall_mem_cons.mp hvalid
    obtain ⟨g, rest, hg, rfl, hrest⟩ := Json.exists_of_laid_mark hlaid
    obtain ⟨g', rest, hg', rfl, hbehind⟩ := Json.exists_of_laid_mark hrest
    obtain ⟨left, hleft, hout⟩ := ih hts hbehind
    have hgaps : Blanks (g ++ g') := fun c hc => (List.mem_append.mp hc).elim (hg c) (hg' c)
    refine ⟨g ++ g' ++ (Mark.closing k).char :: left, Json.laid_mark hgaps hleft, ?_⟩
    have htext : g ++ Mark.comma.char :: (g' ++ (Mark.closing k).char :: rest) ++ b =
        g ++ (',' :: (g' ++ (Mark.closing k).char :: (rest ++ b))) := by simp [Mark.char]
    rw [htext, withoutTrailingCommas_blanks hg,
      withoutTrailingCommas_drop (isBlank_of_blanks hg'), hout]
    simp

/-- What stands behind the blanks at the start of a text. -/
theorem blanks_or_char_or_drop (s : List Char) : Blanks s ∨
    (∃ g c r, s = g ++ c :: r ∧ Blanks g ∧ ¬ IsBlank c ∧ (c = ',' → closesNext r = false)) ∨
    ∃ g g' k r, s = g ++ ',' :: (g' ++ (Mark.closing k).char :: r) ∧ Blanks g ∧
      ∀ c ∈ g', Text.isBlank c = true := by
  induction s with
  | nil => exact Or.inl (by simp [Blanks])
  | cons c s ih =>
    by_cases hc : IsBlank c
    · have hcons {g : List Char} (hg : Blanks g) : Blanks (c :: g) :=
        List.forall_mem_cons.mpr ⟨hc, hg⟩
      rcases ih with hs | ⟨g, d, r, rfl, hg, hd⟩ | ⟨g, g', k, r, rfl, hg, hg'⟩
      · exact Or.inl (hcons hs)
      · exact Or.inr (Or.inl ⟨c :: g, d, r, rfl, hcons hg, hd⟩)
      · exact Or.inr (Or.inr ⟨c :: g, g', k, r, rfl, hcons hg, hg'⟩)
    have hnil : Blanks [] := by simp [Blanks]
    by_cases hcomma : c = ',' ∧ closesNext s = true
    · obtain ⟨rfl, hcloses⟩ := hcomma
      obtain ⟨g', k, r, hg', rfl⟩ := (closesNext_iff s).mp hcloses
      exact Or.inr (Or.inr ⟨[], g', k, r, rfl, hnil, hg'⟩)
    · exact Or.inr (Or.inl ⟨[], c, s, rfl, hnil, hc, fun h =>
        Bool.eq_false_iff.mpr fun hcloses => hcomma ⟨h, hcloses⟩⟩)

/-- A character of a word that is left at the start of a text stood there. -/
theorem exists_of_withoutTrailingCommas_word {w : List Char} (hw : ∀ c ∈ w, isWordChar c = true)
    (h : withoutTrailingCommas .text s = w ++ out) :
    ∃ r, s = w ++ r ∧ withoutTrailingCommas .text r = out := by
  induction w generalizing s with
  | nil => exact ⟨s, rfl, h⟩
  | cons c w ih =>
    obtain ⟨hc, hrest⟩ := List.forall_mem_cons.mp hw
    have hblank := Json.isBlank_of_isWordChar hc
    cases s with
    | nil => simp [withoutTrailingCommas] at h
    | cons d r =>
      by_cases hcomma : d = ',' ∧ closesNext r = true
      · obtain ⟨rfl, hcloses⟩ := hcomma
        obtain ⟨g, k, r, hg, rfl⟩ := (closesNext_iff r).mp hcloses
        rw [withoutTrailingCommas_drop hg] at h
        cases g with
        | nil =>
          obtain ⟨rfl, -⟩ := List.cons.inj h
          cases k <;> cases hc
        | cons x g =>
          obtain ⟨rfl, -⟩ := List.cons.inj h
          rw [hg x List.mem_cons_self] at hblank
          cases hblank
      · rw [withoutTrailingCommas_char fun hd =>
          Bool.eq_false_iff.mpr fun hcloses => hcomma ⟨hd, hcloses⟩] at h
        obtain ⟨rfl, hr⟩ := List.cons.inj h
        have hquote : d ≠ '\x22' := by
          rintro rfl
          cases hc
        rw [if_neg hquote] at hr
        obtain ⟨r, rfl, hout⟩ := ih hrest hr
        exact ⟨r, rfl, hout⟩

/-- A token that is left at the start of a text stood there. -/
theorem exists_of_withoutTrailingCommas_token {t : Token} {c : Char} {r : List Char}
    (ht : t.Valid) (hcomma : c = ',' → closesNext r = false)
    (h : withoutTrailingCommas .text (c :: r) = t.chars ++ out) :
    ∃ r', c :: r = t.chars ++ r' ∧ withoutTrailingCommas .text r' = out ∧
      (t = .mark .comma → closesNext r' = false) := by
  cases t with
  | word w =>
    obtain ⟨_, _, -, hall⟩ := Word.Valid.isWordChar ht
    obtain ⟨r', hr, hout⟩ := exists_of_withoutTrailingCommas_word hall h
    exact ⟨r', hr, hout, nofun⟩
  | mark m =>
    rw [withoutTrailingCommas_char hcomma] at h
    obtain ⟨rfl, hr⟩ := List.cons.inj h
    have hquote : m.char ≠ '\x22' := by rcases m with (_ | _) | (_ | _) | _ | _ <;> decide
    rw [if_neg hquote] at hr
    refine ⟨r, rfl, hr, fun hm => hcomma ?_⟩
    obtain rfl := Token.mark.inj hm
    rfl
  | string raw =>
    rw [withoutTrailingCommas_char hcomma] at h
    obtain ⟨rfl, hr⟩ := List.cons.inj h
    rw [if_pos rfl, List.append_eq, List.append_assoc] at hr
    obtain ⟨r', rfl, hout⟩ := keepsStrings_withoutTrailingCommas.exists_of_append ht hr
    exact ⟨r', by simp [Token.chars], hout, nofun⟩

/-- A text of which tokens are left is these tokens with commas before closing brackets. -/
theorem exists_trims_of_withoutTrailingCommas {left : List Char} (hlaid : Laid Blanks us left)
    (hvalid : AllValid us) (hb : Blanks b) (h : withoutTrailingCommas .text s = left ++ b) :
    ∃ ts text, Trims ts us ∧ Laid Blanks ts text ∧ AllValid ts ∧ s = text ++ b := by
  have hleft {g : List Char} (hg : Blanks g) : withoutTrailingCommas .text g = g := by
    simpa [withoutTrailingCommas] using withoutTrailingCommas_blanks hg []
  induction hlaid generalizing s with
  | nil =>
    rcases blanks_or_char_or_drop s with hs | ⟨g, c, r, rfl, hg, hc, hcomma⟩ |
      ⟨g, g', k, r, rfl, hg, hg'⟩
    · rw [hleft hs] at h
      exact ⟨[], [], .nil, .nil, Json.allValid_nil, h⟩
    · rw [withoutTrailingCommas_blanks hg, withoutTrailingCommas_char hcomma] at h
      exact absurd (hb c (by rw [← List.nil_append b, ← h]; simp)) hc
    · rw [withoutTrailingCommas_blanks hg, withoutTrailingCommas_drop hg'] at h
      have hmem := isBlank_of_blanks hb (Mark.closing k).char
        (by rw [← List.nil_append b, ← h]; simp)
      rw [isBlank_closing] at hmem
      cases hmem
  | @cons g₀ t us left hg₀ _ ih =>
    obtain ⟨ht, hus⟩ := List.forall_mem_cons.mp hvalid
    obtain ⟨x, chars, hchars, hx⟩ := Token.Valid.head ht
    have hx' : ¬ IsBlank x := Json.not_isBlank hx
    rw [List.append_assoc, List.append_assoc] at h
    rcases blanks_or_char_or_drop s with hs | ⟨g, c, r, rfl, hg, hc, hcomma⟩ |
      ⟨g, g', k, r, rfl, hg, hg'⟩
    · rw [hleft hs] at h
      exact absurd (hs x (by rw [h, hchars]; simp)) hx'
    · rw [withoutTrailingCommas_blanks hg] at h
      obtain ⟨-, hrest⟩ := append_inj_of_front h hg
        (by rw [withoutTrailingCommas_char hcomma]; rintro _ ⟨⟩; exact hc) hg₀
        (by rw [hchars]; rintro _ ⟨⟩; exact hx')
      obtain ⟨r', hr, hout, hkeep⟩ := exists_of_withoutTrailingCommas_token ht hcomma hrest
      obtain ⟨ts, text, htrims, htext, hts, rfl⟩ := ih hus hout
      exact ⟨t :: ts, g ++ (t.chars ++ text),
        .keep (fun h => (closesNext_of_laid htext hts hb).symm.trans (hkeep h)) htrims,
        .cons hg htext, hts.cons ht, by rw [hr]; simp⟩
    · rw [withoutTrailingCommas_blanks hg, withoutTrailingCommas_drop hg', ← List.append_assoc] at h
      obtain ⟨hgaps, hrest⟩ := append_inj_of_front (P := fun c => Text.isBlank c = true) h
        (fun c hc => (List.mem_append.mp hc).elim (isBlank_of_blanks hg c) (hg' c))
        (by rintro _ ⟨⟩; simp [isBlank_closing]) (isBlank_of_blanks hg₀)
        (by rw [hchars]; rintro _ ⟨⟩; simp [hx])
      rw [hchars, List.cons_append] at hrest
      obtain ⟨rfl, hbehind⟩ := List.cons.inj hrest
      -- The first token that is left is the bracket behind the comma.
      obtain rfl := eq_closing_of_head ht hchars
      obtain rfl : [] = chars := (List.cons.inj hchars).2
      obtain ⟨ts, text, htrims, htext, hts, rfl⟩ := ih hus hbehind
      have hg'' : Blanks g' := fun c hc => hg₀ c (by rw [← hgaps]; exact List.mem_append_right g hc)
      refine ⟨_, g ++ ',' :: (g' ++ (Mark.closing k).char :: text), .drop k htrims,
        Json.laid_mark hg (Json.laid_mark hg'' htext), hts.mark.mark, by simp⟩

/-- Whether a container holds a comma and nothing else, in a text without comments. `opened` tells
whether nothing but blanks stands behind an opening bracket. -/
def loneComma : Inside → Bool → List Char → Bool
  | _, _, [] => false
  | .string, opened, c :: r =>
    loneComma (if c == '\\' then .escape else if c == '\x22' then .text else .string) opened r
  | .escape, opened, _ :: r => loneComma .string opened r
  | _, opened, c :: r =>
    if c == '\x22' then loneComma .string false r
    else (opened && c == ',' && closesNext r) ||
      loneComma .text (c == '[' || c == '\x7b' || opened && Text.isBlank c) r

/-- Blanks make no comma lone. -/
theorem loneComma_blanks (hg : Blanks g) (opened : Bool) (s : List Char) :
    loneComma .text opened (g ++ s) = loneComma .text opened s := by
  induction g with
  | nil => rfl
  | cons c g ih =>
    obtain ⟨hc, hrest⟩ := List.forall_mem_cons.mp hg
    rw [List.cons_append, ← ih hrest]
    rcases hc with rfl | rfl | rfl | rfl <;> simp [loneComma, Text.isBlank]

/-- Behind a word, no bracket is open right before. -/
theorem loneComma_word {w : List Char} {c : Char} (hw : ∀ x ∈ c :: w, isWordChar x = true)
    (opened : Bool) (s : List Char) :
    loneComma .text opened (c :: w ++ s) = loneComma .text false s := by
  have hstep {c : Char} (hc : isWordChar c = true) (opened : Bool) (r : List Char) :
      loneComma .text opened (c :: r) = loneComma .text false r := by
    have hne (d : Char) (hd : isWordChar d = false) : c ≠ d := by
      rintro rfl
      rw [hc] at hd
      cases hd
    have hquote := hne '\x22' rfl
    have hcomma := beq_false_of_ne (hne ',' rfl)
    have hbracket := beq_false_of_ne (hne '[' rfl)
    have hbrace := beq_false_of_ne (hne '\x7b' rfl)
    simp [loneComma, hquote, hcomma, hbracket, hbrace, Json.isBlank_of_isWordChar hc]
  induction w generalizing c opened with
  | nil => exact hstep (hw c List.mem_cons_self) opened s
  | cons d w ih =>
    obtain ⟨hc, hw⟩ := List.forall_mem_cons.mp hw
    rw [List.cons_append, hstep hc, ih hw]

/-- A comma in a string is not lone. -/
theorem loneComma_string {raw : List Char} (hraw : Quoted raw) (opened : Bool) (s : List Char) :
    loneComma .string opened (raw ++ '\x22' :: s) = loneComma .text opened s := by
  induction hraw with
  | nil => simp [loneComma]
  | plain hquote hslash _ ih => simp [loneComma, hquote, hslash, ih]
  | escape e _ ih => simp [loneComma, ih]

/-- Of all tokens, a comma alone between two brackets is lone. -/
theorem loneComma_token {t : Token} (ht : t.Valid) (opened : Bool) (s : List Char) :
    loneComma .text opened (t.chars ++ s) =
      ((opened && t == .mark .comma && closesNext s) || loneComma .text t.isOpening s) := by
  cases t with
  | mark m =>
    rcases m with (_ | _) | (_ | _) | _ | _ <;>
      simp [loneComma, Token.chars, Mark.char, Token.isOpening, Text.isBlank]
  | word w =>
    obtain ⟨c, rest, hcons, hall⟩ := Word.Valid.isWordChar ht
    have hchars : (Token.word w).chars = c :: rest := hcons
    rw [hcons] at hall
    rw [hchars, loneComma_word hall]
    simp [Token.isOpening]
  | string raw =>
    have hstring := loneComma_string ht false s
    simp [loneComma, Token.chars, Token.isOpening, hstring]

/-- A text holds a lone comma when its tokens do. -/
theorem loneComma_of_laid (hlaid : Laid Blanks ts text) (hvalid : AllValid ts) (hb : Blanks b)
    (opened : Bool) : loneComma .text opened (text ++ b) = hasLone opened ts := by
  induction hlaid generalizing opened with
  | nil =>
    have hblanks := loneComma_blanks hb opened []
    rw [List.append_nil] at hblanks
    exact hblanks
  | @cons g t ts text hg h ih =>
    obtain ⟨ht, hts⟩ := List.forall_mem_cons.mp hvalid
    rw [List.append_assoc, List.append_assoc, loneComma_blanks hg, loneComma_token ht,
      closesNext_of_laid h hts hb, ih hts, hasLone]

end ScriptModules.Project.Jsonc

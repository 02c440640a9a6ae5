import ScriptModules.Project.Jsonc
import ScriptModules.Proofs.Json.Notation

/-!
# Comments between tokens

Gaps of blanks and comments become gaps of blanks, and the tokens stay. Nothing else becomes tokens
with blanks between them, but a block comment that is not closed is taken for the end of the text.
-/

namespace ScriptModules.Project.Jsonc

open Json (Token Word Quoted Blanks Laid AllValid isWordChar)
open Json.Place (IsBlank)

/-- Blanks, comments up to the end of their line, and closed block comments. -/
inductive Gap : List Char → Prop
  | nil : Gap []
  | blank {c : Char} {g : List Char} (hc : IsBlank c) (h : Gap g) : Gap (c :: g)
  | line {body g : List Char} (hbody : '\n' ∉ body) (h : Gap g) :
    Gap ('/' :: '/' :: (body ++ '\n' :: g))
  | block {body g : List Char} (hbody : ¬ ['*', '/'] <:+: body) (h : Gap g) :
    Gap ('/' :: '*' :: (body ++ '*' :: '/' :: g))

/-- A gap at the end of a text, where a comment may end with the text. -/
inductive LastGap : List Char → Prop
  | gap {g : List Char} (h : Gap g) : LastGap g
  | line {g body : List Char} (h : Gap g) (hbody : '\n' ∉ body) :
    LastGap (g ++ '/' :: '/' :: body)

/-- A gap with a block comment behind it that is not closed. -/
inductive Unclosed : List Char → Prop
  | block {g body : List Char} (h : Gap g) (hbody : ¬ ['*', '/'] <:+: body) :
    Unclosed (g ++ '/' :: '*' :: body)

/-- Where a reader of comments is at the end of a text. -/
def endsInside : Inside → List Char → Inside
  | inside, [] => inside
  | .text, c :: r =>
    if c == '\x22' then endsInside .string r
    else if c == '/' && r.head? == some '/' then endsInside .lineComment r
    else if c == '/' && r.head? == some '*' then endsInside .blockStart r
    else endsInside .text r
  | .string, c :: r =>
    endsInside (if c == '\\' then .escape else if c == '\x22' then .text else .string) r
  | .escape, _ :: r => endsInside .string r
  | .lineComment, c :: r => endsInside (if c == '\n' then .text else .lineComment) r
  | .blockStart, _ :: r => endsInside (.blockComment false) r
  | .blockComment star, c :: r =>
    endsInside (if star && c == '/' then .text else .blockComment (c == '*')) r

attribute [local simp] withoutComments endsInside

/-- A pass over a text that leaves strings as they are. -/
structure KeepsStrings (pass : Inside → List Char → List Char) : Prop where
  nil : pass .string [] = [] ∧ pass .escape [] = []
  opens (r : List Char) : pass .text ('\x22' :: r) = '\x22' :: pass .string r
  string (c : Char) (r : List Char) : pass .string (c :: r) =
    c :: pass (if c == '\\' then .escape else if c == '\x22' then .text else .string) r
  escape (c : Char) (r : List Char) : pass .escape (c :: r) = c :: pass .string r

namespace KeepsStrings

variable {pass : Inside → List Char → List Char} {raw s out : List Char}

/-- A string at the front is left, and the pass goes on behind it. -/
theorem append (h : KeepsStrings pass) (hraw : Quoted raw) (s : List Char) :
    pass .string (raw ++ '\x22' :: s) = raw ++ '\x22' :: pass .text s := by
  induction hraw with
  | nil => exact h.string _ _
  | plain hquote hslash _ ih => simp [h.string, hquote, hslash, ih]
  | escape e _ ih => simp [h.string, h.escape, ih]

/-- A string that is left at the front was there, and what is left behind it was left of the rest.
-/
theorem exists_of_append (h : KeepsStrings pass) (hraw : Quoted raw)
    (hs : pass .string s = raw ++ '\x22' :: out) :
    ∃ r, s = raw ++ '\x22' :: r ∧ pass .text r = out := by
  obtain ⟨hnil, hnil'⟩ := h.nil
  induction hraw generalizing s with
  | nil =>
    cases s with
    | nil => simp [hnil] at hs
    | cons c r =>
      rw [h.string, List.nil_append, List.cons.injEq] at hs
      obtain ⟨rfl, hs⟩ := hs
      exact ⟨r, rfl, hs⟩
  | @plain c raw hquote hslash _ ih =>
    cases s with
    | nil => simp [hnil] at hs
    | cons d r =>
      rw [h.string, List.cons_append, List.cons.injEq] at hs
      obtain ⟨rfl, hs⟩ := hs
      rw [if_neg (by simpa using hslash), if_neg (by simpa using hquote)] at hs
      obtain ⟨r, rfl, hr⟩ := ih hs
      exact ⟨r, rfl, hr⟩
  | @escape e raw _ ih =>
    cases s with
    | nil => simp [hnil] at hs
    | cons d r =>
      rw [h.string, List.cons_append, List.cons.injEq] at hs
      obtain ⟨rfl, hs⟩ := hs
      have hs : pass .escape r = e :: raw ++ '\x22' :: out := hs
      cases r with
      | nil => simp [hnil'] at hs
      | cons d r =>
        rw [h.escape, List.cons_append, List.cons.injEq] at hs
        obtain ⟨rfl, hbehind⟩ := hs
        obtain ⟨r, rfl, hr⟩ := ih hbehind
        exact ⟨r, rfl, hr⟩

end KeepsStrings

/-- Taking out comments leaves strings as they are. -/
theorem keepsStrings_withoutComments : KeepsStrings withoutComments where
  nil := ⟨rfl, rfl⟩
  opens r := by simp
  string c r := by rw [withoutComments]
  escape c r := by rw [withoutComments]

/-- What is left of a piece of text, and where a reader of comments is behind it. -/
structure Walks (inside : Inside) (piece left : List Char) (after : Inside) : Prop where
  left (r : List Char) :
    withoutComments inside (piece ++ r) = left ++ withoutComments after r
  after (r : List Char) : endsInside inside (piece ++ r) = endsInside after r

namespace Walks

variable {a b c : Inside} {piece piece' left left' body raw : List Char}

theorem nil (a : Inside) : Walks a [] [] a := ⟨fun _ => rfl, fun _ => rfl⟩

/-- What is left of two pieces is left of both together. -/
theorem append (h : Walks a piece left b) (h' : Walks b piece' left' c) :
    Walks a (piece ++ piece') (left ++ left') c where
  left r := by rw [List.append_assoc, h.left, h'.left, List.append_assoc]
  after r := by rw [List.append_assoc, h.after, h'.after]

/-- A character that opens nothing is left. -/
theorem char {x : Char} (hquote : x ≠ '\x22') (hslash : x ≠ '/') :
    Walks .text [x] [x] .text where
  left r := by simp [hquote, hslash]
  after r := by simp [hquote, hslash]

/-- Characters that open nothing are left. -/
theorem plain (h : ∀ x ∈ piece, x ≠ '\x22' ∧ x ≠ '/') : Walks .text piece piece .text := by
  induction piece with
  | nil => exact nil .text
  | cons x piece ih =>
    obtain ⟨⟨hquote, hslash⟩, h⟩ := List.forall_mem_cons.mp h
    exact (char hquote hslash).append (ih h)

/-- Two slashes open a comment up to the end of the line. -/
theorem line : Walks .text ['/', '/'] [] .lineComment where
  left r := by simp
  after r := by simp

/-- Nothing is left of a comment up to the end of its line. -/
theorem inLine (h : '\n' ∉ body) : Walks .lineComment body [] .lineComment := by
  induction body with
  | nil => exact nil .lineComment
  | cons x body ih =>
    obtain ⟨hx, hbody⟩ : '\n' ≠ x ∧ '\n' ∉ body := by simpa using h
    have hstep : Walks .lineComment [x] [] .lineComment :=
      ⟨fun r => by simp [Ne.symm hx], fun r => by simp [Ne.symm hx]⟩
    exact hstep.append (ih hbody)

/-- A line end closes the comment and is left. -/
theorem lineEnd : Walks .lineComment ['\n'] ['\n'] .text where
  left r := by simp
  after r := by simp

/-- A slash and a star open a block comment. -/
theorem block : Walks .text ['/', '*'] [] (.blockComment false) where
  left r := by simp
  after r := by simp

/-- Inside a block comment nothing is left but line breaks. -/
theorem inBlock (star : Bool) (hstar : star = true → body.head? ≠ some '/')
    (h : ¬ ['*', '/'] <:+: body) :
    ∃ breaks star', Blanks breaks ∧
      Walks (.blockComment star) body breaks (.blockComment star') := by
  induction body generalizing star with
  | nil => exact ⟨[], star, by simp [Blanks], nil _⟩
  | cons x body ih =>
    rw [List.infix_cons_iff, not_or, List.cons_prefix_cons] at h
    obtain ⟨hfront, hbody⟩ := h
    have hnext : (x == '*') = true → body.head? ≠ some '/' := by
      rintro hx hhead
      obtain ⟨rest, rfl⟩ := List.head?_eq_some_iff.mp hhead
      exact hfront ⟨(beq_iff_eq.mp hx).symm, by simp⟩
    have hclose : (star && x == '/') = false := by
      cases star with
      | false => rfl
      | true => simpa using hstar rfl
    obtain ⟨breaks, star', hbreaks, hwalks⟩ := ih _ hnext hbody
    by_cases hx : x = '\n'
    · subst hx
      refine ⟨'\n' :: breaks, star', List.forall_mem_cons.mpr ⟨Or.inl rfl, hbreaks⟩, ?_⟩
      have hstep : Walks (.blockComment star) ['\n'] ['\n'] (.blockComment false) :=
        ⟨fun r => by simp, fun r => by simp⟩
      exact hstep.append hwalks
    · refine ⟨breaks, star', hbreaks, ?_⟩
      have hstep : Walks (.blockComment star) [x] [] (.blockComment (x == '*')) :=
        ⟨fun r => by simp [hclose, hx], fun r => by simp [hclose]⟩
      exact hstep.append hwalks

/-- A star and a slash close a block comment and leave a blank. -/
theorem blockEnd (star : Bool) : Walks (.blockComment star) ['*', '/'] [' '] .text where
  left r := by simp
  after r := by simp

/-- A string is left as it is. -/
theorem string (h : Quoted raw) :
    Walks .text ('\x22' :: (raw ++ ['\x22'])) ('\x22' :: (raw ++ ['\x22'])) .text where
  left r := by
    have hkeeps := keepsStrings_withoutComments.append h r
    simp [hkeeps]
  after r := by
    have hinside : endsInside .string (raw ++ '\x22' :: r) = endsInside .text r := by
      induction h with
      | nil => rfl
      | plain hquote hslash _ ih => simp [hquote, hslash, ih]
      | escape e _ ih => simp [ih]
    simp [hinside]

end Walks

/-- A blank opens nothing and is no comma. -/
theorem ne_of_isBlank {c : Char} (h : IsBlank c) : c ≠ '\x22' ∧ c ≠ '/' ∧ c ≠ ',' := by
  rcases h with rfl | rfl | rfl | rfl <;> decide

/-- A gap leaves blanks, and at least one of them unless there is no gap. -/
theorem Gap.walks {g : List Char} (h : Gap g) :
    ∃ b, Blanks b ∧ (b = [] → g = []) ∧ Walks .text g b .text := by
  induction h with
  | nil => exact ⟨[], by simp [Blanks], fun _ => rfl, .nil .text⟩
  | @blank c g hc _ ih =>
    obtain ⟨b, hb, -, hwalks⟩ := ih
    obtain ⟨hquote, hslash, -⟩ := ne_of_isBlank hc
    exact ⟨c :: b, List.forall_mem_cons.mpr ⟨hc, hb⟩, by simp,
      (Walks.char hquote hslash).append hwalks⟩
  | line hbody _ ih =>
    obtain ⟨b, hb, -, hwalks⟩ := ih
    refine ⟨'\n' :: b, List.forall_mem_cons.mpr ⟨Or.inl rfl, hb⟩, by simp, ?_⟩
    exact Walks.line.append ((Walks.inLine hbody).append (Walks.lineEnd.append hwalks))
  | @block body g hbody _ ih =>
    obtain ⟨b, hb, -, hwalks⟩ := ih
    obtain ⟨breaks, star, hbreaks, hblock⟩ := Walks.inBlock false (by simp) hbody
    refine ⟨breaks ++ ' ' :: b, ?_, by simp, ?_⟩
    · have hbehind : Blanks (' ' :: b) := List.forall_mem_cons.mpr ⟨Or.inr (Or.inl rfl), hb⟩
      exact fun c hc => (List.mem_append.mp hc).elim (hbreaks c) (hbehind c)
    · exact Walks.block.append (hblock.append ((Walks.blockEnd star).append hwalks))

/-- A word is left as it is. -/
theorem walks_word {w : Word} (h : w.Valid) : Walks .text w.chars w.chars .text := by
  obtain ⟨_, _, -, hall⟩ := Word.Valid.isWordChar h
  refine .plain fun c hc => ⟨?_, ?_⟩ <;>
    (rintro rfl; exact absurd (hall _ hc) (by decide))

/-- Tokens stay as they are. -/
theorem walks_token {t : Token} (h : t.Valid) : Walks .text t.chars t.chars .text := by
  cases t with
  | mark m => rcases m with (_ | _) | (_ | _) | _ | _ <;> exact .char (by decide) (by decide)
  | word w => exact walks_word h
  | string raw => exact .string h

/-- Of tokens with gaps between them the tokens are left, with blanks between them. -/
theorem exists_walks {ts : List Token} {text : List Char} (h : Laid Gap ts text)
    (hvalid : AllValid ts) : ∃ left, Laid Blanks ts left ∧ Walks .text text left .text := by
  induction h with
  | nil => exact ⟨[], .nil, .nil .text⟩
  | @cons g t ts text hgap _ ih =>
    obtain ⟨ht, hts⟩ := List.forall_mem_cons.mp hvalid
    obtain ⟨left, hleft, hwalks⟩ := ih hts
    obtain ⟨b, hb, -, hg⟩ := hgap.walks
    exact ⟨b ++ (t.chars ++ left), .cons hb hleft, hg.append ((walks_token ht).append hwalks)⟩

/-- A block comment is open. -/
def isOpen : Inside → Bool
  | .blockComment _ => true
  | .blockStart => true
  | _ => false

variable {g body rest : List Char}

/-- At the end of a text only blanks are left, and no block comment is open. -/
theorem LastGap.blanks (h : LastGap rest) :
    Blanks (withoutComments .text rest) ∧ isOpen (endsInside .text rest) = false := by
  cases h with
  | gap h =>
    obtain ⟨b, hb, -, hwalks⟩ := h.walks
    have hleft := hwalks.left []
    have hafter := hwalks.after []
    rw [List.append_nil] at hleft hafter
    rw [hleft, hafter]
    exact ⟨by simpa [withoutComments] using hb, rfl⟩
  | line h hbody =>
    obtain ⟨b, hb, -, hwalks⟩ := h.walks
    have hline := hwalks.append (Walks.line.append (Walks.inLine hbody))
    have hleft := hline.left []
    have hafter := hline.after []
    rw [List.append_nil] at hleft hafter
    have htext (g body : List Char) : g ++ '/' :: '/' :: body = g ++ (['/', '/'] ++ body) := rfl
    rw [htext, hleft, hafter]
    exact ⟨by simpa [withoutComments] using hb, rfl⟩

/-- A block comment that is not closed leaves blanks, and is open at the end. -/
theorem Unclosed.blanks (h : Unclosed rest) :
    Blanks (withoutComments .text rest) ∧ isOpen (endsInside .text rest) = true := by
  cases h with
  | @block g body h hbody =>
    obtain ⟨b, hb, -, hwalks⟩ := h.walks
    obtain ⟨breaks, star, hbreaks, hblock⟩ := Walks.inBlock false (by simp) hbody
    have hopen := hwalks.append (Walks.block.append hblock)
    have hleft := hopen.left []
    have hafter := hopen.after []
    rw [List.append_nil] at hleft hafter
    have htext : g ++ '/' :: '*' :: body = g ++ (['/', '*'] ++ body) := rfl
    rw [htext, hleft, hafter]
    refine ⟨fun c hc => ?_, rfl⟩
    simp only [withoutComments, List.nil_append, List.append_assoc, List.mem_append,
      List.mem_singleton] at hc
    rcases hc with hc | hc | rfl
    · exact hb c hc
    · exact hbreaks c hc
    · exact Or.inr (Or.inl rfl)

/-- What stands behind a gap: nothing, a comment that goes on up to the end of the text, or a
character of something else. -/
inductive Behind : List Char → Prop
  | nil : Behind []
  | line {body : List Char} (h : '\n' ∉ body) : Behind ('/' :: '/' :: body)
  | block {body : List Char} (h : ¬ ['*', '/'] <:+: body) : Behind ('/' :: '*' :: body)
  | char {c : Char} {r : List Char} (hc : ¬ IsBlank c)
    (hslash : c = '/' → r.head? ≠ some '/' ∧ r.head? ≠ some '*') : Behind (c :: r)

/-- The first end of a block comment, if there is one. -/
theorem exists_end_of_infix {body : List Char} (h : ['*', '/'] <:+: body) :
    ∃ inner r, ¬ ['*', '/'] <:+: inner ∧ body = inner ++ '*' :: '/' :: r := by
  induction body with
  | nil => simp at h
  | cons c body ih =>
    by_cases hfront : ['*', '/'] <+: c :: body
    · obtain ⟨r, hr⟩ := hfront
      exact ⟨[], r, by simp, hr.symm⟩
    · obtain ⟨inner, r, hinner, rfl⟩ := ih ((List.infix_cons_iff.mp h).resolve_left hfront)
      refine ⟨c :: inner, r, fun h => ?_, rfl⟩
      rcases List.infix_cons_iff.mp h with h | h
      · exact hfront (h.trans ⟨'*' :: '/' :: r, rfl⟩)
      · exact hinner h

/-- Every text is a gap and what stands behind it. -/
theorem exists_gap (s : List Char) : ∃ g rest, s = g ++ rest ∧ Gap g ∧ Behind rest := by
  -- On the length, because a comment takes more than one character at a time.
  induction hlength : s.length using Nat.strong_induction_on generalizing s with
  | _ n ih =>
    subst hlength
    cases s with
    | nil => exact ⟨[], [], rfl, .nil, .nil⟩
    | cons c r =>
      by_cases hc : IsBlank c
      · obtain ⟨g, rest, rfl, hg, hrest⟩ := ih r.length (Nat.lt_succ_self _) r rfl
        exact ⟨c :: g, rest, rfl, .blank hc hg, hrest⟩
      by_cases hline : c = '/' ∧ r.head? = some '/'
      · obtain ⟨rfl, hhead⟩ := hline
        obtain ⟨body, rfl⟩ := List.head?_eq_some_iff.mp hhead
        by_cases hbreak : '\n' ∈ body
        · obtain ⟨inner, after, rfl, hinner⟩ := List.eq_append_cons_of_mem hbreak
          obtain ⟨g, rest, rfl, hg, hrest⟩ := ih after.length (by simp; omega) after rfl
          exact ⟨_, rest, by simp, .line hinner hg, hrest⟩
        · exact ⟨[], _, rfl, .nil, .line hbreak⟩
      by_cases hblock : c = '/' ∧ r.head? = some '*'
      · obtain ⟨rfl, hhead⟩ := hblock
        obtain ⟨body, rfl⟩ := List.head?_eq_some_iff.mp hhead
        by_cases hend : ['*', '/'] <:+: body
        · obtain ⟨inner, after, hinner, rfl⟩ := exists_end_of_infix hend
          obtain ⟨g, rest, rfl, hg, hrest⟩ := ih after.length (by simp; omega) after rfl
          exact ⟨_, rest, by simp, .block hinner hg, hrest⟩
        · exact ⟨[], _, rfl, .nil, .block hend⟩
      · exact ⟨[], c :: r, rfl, .nil, .char hc fun h =>
          ⟨fun hhead => hline ⟨h, hhead⟩, fun hhead => hblock ⟨h, hhead⟩⟩⟩

/-- Texts that are equal have the same front of characters of a kind. -/
theorem append_inj_of_front {P : Char → Prop} {a b s t : List Char} (h : a ++ s = b ++ t)
    (ha : ∀ c ∈ a, P c) (hs : ∀ c ∈ s.head?, ¬ P c) (hb : ∀ c ∈ b, P c)
    (ht : ∀ c ∈ t.head?, ¬ P c) : a = b ∧ s = t := by
  induction a generalizing b with
  | nil =>
    cases b with
    | nil => exact ⟨rfl, h⟩
    | cons c b =>
      obtain rfl : s = c :: (b ++ t) := h
      exact absurd (hb c List.mem_cons_self) (hs c rfl)
  | cons c a ih =>
    obtain ⟨hc, ha⟩ := List.forall_mem_cons.mp ha
    cases b with
    | nil =>
      obtain rfl : c :: (a ++ s) = t := h
      exact absurd hc (ht c rfl)
    | cons d b =>
      obtain ⟨rfl, hrest⟩ := List.cons.inj h
      obtain ⟨rfl, rfl⟩ := ih hrest ha (List.forall_mem_cons.mp hb).2
      exact ⟨rfl, rfl⟩

/-- A character that starts neither a gap nor a string is left. -/
theorem withoutComments_char {c : Char} {r : List Char}
    (hslash : c = '/' → r.head? ≠ some '/' ∧ r.head? ≠ some '*') :
    withoutComments .text (c :: r) =
      c :: withoutComments (if c = '\x22' then .string else .text) r := by
  have hline : (c == '/' && r.head? == some '/') = false := by
    simpa using fun h => (hslash h).1
  have hblock : (c == '/' && r.head? == some '*') = false := by
    simpa using fun h => (hslash h).2
  rw [withoutComments, hline, hblock]
  by_cases hquote : c = '\x22' <;> simp [hquote]

/-- A text ends with its first gap, or a character of something else comes behind the gap. -/
theorem lastGap_or_unclosed_or_char (s : List Char) : LastGap s ∨ Unclosed s ∨
    ∃ g c r b, s = g ++ c :: r ∧ Gap g ∧ Blanks b ∧ (b = [] → g = []) ∧ ¬ IsBlank c ∧
      withoutComments .text s = b ++ withoutComments .text (c :: r) ∧
      withoutComments .text (c :: r) =
        c :: withoutComments (if c = '\x22' then .string else .text) r := by
  obtain ⟨g, rest, rfl, hg, hrest⟩ := exists_gap s
  cases hrest with
  | nil =>
    rw [List.append_nil]
    exact Or.inl (.gap hg)
  | line hbody => exact Or.inl (.line hg hbody)
  | block hbody => exact Or.inr (Or.inl (.block hg hbody))
  | @char c r hc hslash =>
    obtain ⟨b, hb, hne, hwalks⟩ := hg.walks
    exact Or.inr (Or.inr ⟨g, c, r, b, rfl, hg, hb, hne, hc, hwalks.left _,
      withoutComments_char hslash⟩)

/-- A character that is left at the start of a text stood there. -/
theorem exists_of_withoutComments_cons {c : Char} {s out : List Char} (hc : ¬ IsBlank c)
    (h : withoutComments .text s = c :: out) :
    ∃ r, s = c :: r ∧ withoutComments (if c = '\x22' then .string else .text) r = out := by
  rcases lastGap_or_unclosed_or_char s with
    hs | hs | ⟨g, d, r, b, rfl, -, hb, hg, hd, hleft, hchar⟩
  · exact absurd (hs.blanks.1 c (by rw [h]; exact List.mem_cons_self)) hc
  · exact absurd (hs.blanks.1 c (by rw [h]; exact List.mem_cons_self)) hc
  · rw [hleft, hchar] at h
    obtain ⟨rfl, hrest⟩ := append_inj_of_front (b := []) h hb (by rintro _ ⟨⟩; exact hd) (by simp)
      (by rintro _ ⟨⟩; exact hc)
    obtain ⟨rfl, hout⟩ := List.cons.inj hrest
    obtain rfl := hg rfl
    exact ⟨r, rfl, hout⟩

/-- Words and marks that are left at the start of a text stood there. -/
theorem exists_of_withoutComments_append {w s out : List Char}
    (hw : ∀ c ∈ w, ¬ IsBlank c ∧ c ≠ '\x22') (h : withoutComments .text s = w ++ out) :
    ∃ r, s = w ++ r ∧ withoutComments .text r = out := by
  induction w generalizing s with
  | nil => exact ⟨s, rfl, h⟩
  | cons c w ih =>
    obtain ⟨⟨hblank, hquote⟩, hw⟩ := List.forall_mem_cons.mp hw
    obtain ⟨r, rfl, hr⟩ := exists_of_withoutComments_cons hblank h
    rw [if_neg hquote] at hr
    obtain ⟨r, rfl, hout⟩ := ih hw hr
    exact ⟨r, rfl, hout⟩

/-- A token that is left at the start of a text stood there. -/
theorem exists_of_withoutComments_token {t : Token} {s out : List Char} (ht : t.Valid)
    (h : withoutComments .text s = t.chars ++ out) :
    ∃ r, s = t.chars ++ r ∧ withoutComments .text r = out := by
  cases t with
  | mark m =>
    refine exists_of_withoutComments_append (List.forall_mem_singleton.mpr ?_) h
    rcases m with (_ | _) | (_ | _) | _ | _ <;> exact ⟨by simp [IsBlank, Json.Mark.char], by decide⟩
  | word w =>
    obtain ⟨_, _, -, hall⟩ := Word.Valid.isWordChar ht
    refine exists_of_withoutComments_append (fun c hc => ⟨?_, ?_⟩) h
    · exact Json.not_isBlank (Json.isBlank_of_isWordChar (hall c hc))
    · rintro rfl
      exact absurd (hall _ hc) (by decide)
  | string raw =>
    have h : withoutComments .text s = '\x22' :: (raw ++ ['\x22'] ++ out) := h
    obtain ⟨r, rfl, hr⟩ := exists_of_withoutComments_cons (by simp [IsBlank]) h
    rw [if_pos rfl, List.append_assoc] at hr
    obtain ⟨r, rfl, hout⟩ := keepsStrings_withoutComments.exists_of_append ht hr
    exact ⟨r, by simp [Token.chars], hout⟩

/-- A text of which tokens with blanks between them are left is these tokens with gaps between
them, and a gap or a block comment that is not closed behind them. -/
theorem exists_laid_of_withoutComments {ts : List Token} {left b s : List Char}
    (hlaid : Laid Blanks ts left) (hvalid : AllValid ts) (hb : Blanks b)
    (h : withoutComments .text s = left ++ b) :
    ∃ text rest, s = text ++ rest ∧ Laid Gap ts text ∧ (LastGap rest ∨ Unclosed rest) := by
  induction hlaid generalizing s with
  | nil =>
    rcases lastGap_or_unclosed_or_char s with
      hs | hs | ⟨g, c, r, b', rfl, -, -, -, hc, hleft, hchar⟩
    · exact ⟨[], s, rfl, .nil, Or.inl hs⟩
    · exact ⟨[], s, rfl, .nil, Or.inr hs⟩
    · rw [hleft, hchar] at h
      exact absurd (hb c (by rw [← List.nil_append b, ← h]; simp)) hc
  | @cons g t ts left hg _ ih =>
    obtain ⟨ht, hts⟩ := List.forall_mem_cons.mp hvalid
    obtain ⟨c, chars, hchars, hblank⟩ := Token.Valid.head ht
    have hc : ¬ IsBlank c := Json.not_isBlank hblank
    rw [List.append_assoc, List.append_assoc] at h
    have hmem : c ∈ withoutComments .text s := by simp [h, hchars]
    rcases lastGap_or_unclosed_or_char s with
      hs | hs | ⟨g', d, r, b', rfl, hg', hb', -, hd, hleft, hchar⟩
    · exact absurd (hs.blanks.1 c hmem) hc
    · exact absurd (hs.blanks.1 c hmem) hc
    · rw [hleft] at h
      obtain ⟨-, hrest⟩ := append_inj_of_front h hb' (by rw [hchar]; rintro _ ⟨⟩; exact hd) hg
        (by rw [hchars]; rintro _ ⟨⟩; exact hc)
      -- What is left of a string is the string, so nothing inside it was a comment.
      obtain ⟨r', hr, hout⟩ := exists_of_withoutComments_token ht hrest
      obtain ⟨text, rest, rfl, htext, hrest⟩ := ih hts hout
      exact ⟨g' ++ (t.chars ++ text), rest, by rw [hr]; simp, .cons hg' htext, hrest⟩

end ScriptModules.Project.Jsonc

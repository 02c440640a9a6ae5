import Mathlib.Data.List.Forall2
import ScriptModules.Project.Config
import ScriptModules.Proofs.Json.Documents
import ScriptModules.Proofs.Json.Places
import ScriptModules.Proofs.Project.Comments

/-!
# Lines of configuration texts

What is left of a text when comments and commas are taken out are characters of the text and blanks
for its block comments. Every line feed is left, so each character stays on its line, and a fault
is told on the line where it is in the text.
-/

namespace ScriptModules.Project.Jsonc

open Json (Place readValue readItems nextItem readEnd depthLimit readValue_of_bracket)
open Text (withOffsets isFeed bytesOf)

variable {inside : Inside} {c d : Char} {r : List Char} {last : Nat} {os : List (Nat × Char)}
  {o : Nat × Char} {content : String}

/-- A pass over a text: what it leaves of a character in front of others, where it is behind that
character, and what it leaves at the end. -/
structure Pass where
  leaves : Inside → Char → List Char → Option Char
  turns : Inside → Char → List Char → Inside
  ends : Inside → Option Char

/-- What a pass leaves of characters with their offsets. What is left of a character is written at
its offset, and what is left at the end at the offset of the end. -/
def Pass.run (p : Pass) (last : Nat) : Inside → List (Nat × Char) → List (Nat × Char)
  | inside, [] => (p.ends inside).toList.map (last, ·)
  | inside, (n, c) :: os =>
    (p.leaves inside c (os.map Prod.snd)).toList.map (n, ·) ++
      p.run last (p.turns inside c (os.map Prod.snd)) os

/-- Taking out comments. -/
def comments : Pass where
  leaves
    | .text, c, r =>
      if c == '/' && r.head? == some '/' then none
      else if c == '/' && r.head? == some '*' then none
      else some c
    | .string, c, _ => some c
    | .escape, c, _ => some c
    | .lineComment, c, _ => if c == '\n' then some c else none
    | .blockStart, _, _ => none
    | .blockComment star, c, _ =>
      if star && c == '/' then some ' ' else if c == '\n' then some c else none
  turns
    | .text, c, r =>
      if c == '\x22' then .string
      else if c == '/' && r.head? == some '/' then .lineComment
      else if c == '/' && r.head? == some '*' then .blockStart
      else .text
    | .string, c, _ => if c == '\\' then .escape else if c == '\x22' then .text else .string
    | .escape, _, _ => .string
    | .lineComment, c, _ => if c == '\n' then .text else .lineComment
    | .blockStart, _, _ => .blockComment false
    | .blockComment star, c, _ => if star && c == '/' then .text else .blockComment (c == '*')
  ends inside := if isOpen inside then some ' ' else none

/-- Taking out commas before closing brackets. -/
def trailingCommas : Pass where
  leaves
    | .string, c, _ => some c
    | .escape, c, _ => some c
    | _, c, r => if c == ',' && closesNext r then none else some c
  turns
    | .string, c, _ => if c == '\\' then .escape else if c == '\x22' then .text else .string
    | .escape, _, _ => .string
    | _, c, _ => if c == '\x22' then .string else .text
  ends _ := none

/-- Without the offsets, taking out comments is the same. -/
theorem map_snd_run_comments (last : Nat) (inside : Inside) (os : List (Nat × Char)) :
    (comments.run last inside os).map Prod.snd = withoutComments inside (os.map Prod.snd) := by
  induction os generalizing inside with
  | nil => cases inside <;> rfl
  | cons o os ih =>
    rw [Pass.run, List.map_append, ih, List.map_cons]
    generalize os.map Prod.snd = r
    obtain ⟨n, c⟩ := o
    cases inside with
    | text =>
      by_cases hquote : c = '\x22'
      · simp [comments, withoutComments, hquote]
      · by_cases hline : c = '/' ∧ r.head? = some '/'
        · simp [comments, withoutComments, hline]
        · by_cases hblock : c = '/' ∧ r.head? = some '*'
          · simp [comments, withoutComments, hblock]
          · simp [comments, withoutComments, hquote, hline, hblock]
    | string => simp [comments, withoutComments]
    | escape => simp [comments, withoutComments]
    | lineComment => by_cases hfeed : c = '\n' <;> simp [comments, withoutComments, hfeed]
    | blockStart => simp [comments, withoutComments]
    | blockComment star =>
      by_cases hend : star = true ∧ c = '/'
      · simp [comments, withoutComments, hend]
      · by_cases hfeed : c = '\n' <;> simp [comments, withoutComments, hend, hfeed]

/-- Without the offsets, taking out commas is the same. -/
theorem map_snd_run_trailingCommas (last : Nat) (inside : Inside) (os : List (Nat × Char)) :
    (trailingCommas.run last inside os).map Prod.snd =
      withoutTrailingCommas inside (os.map Prod.snd) := by
  induction os generalizing inside with
  | nil => cases inside <;> rfl
  | cons o os ih =>
    rw [Pass.run, List.map_append, ih, List.map_cons]
    generalize os.map Prod.snd = r
    obtain ⟨n, c⟩ := o
    cases inside with
    | string => simp [trailingCommas, withoutTrailingCommas]
    | escape => simp [trailingCommas, withoutTrailingCommas]
    | _ =>
      by_cases hquote : c = '\x22'
      · simp [trailingCommas, withoutTrailingCommas, hquote]
      · by_cases hcomma : c = ',' ∧ closesNext r = true <;>
          simp [trailingCommas, withoutTrailingCommas, hquote, hcomma]

/-- Where a reader may be in front of a text: what it skips as the second character of a mark is no
line feed. -/
def Ready (inside : Inside) (cs : List Char) : Prop :=
  inside = .blockStart → cs.head? ≠ some '\n'

/-- A pass leaves line feeds, and puts nothing in but blanks, for slashes and at the end. -/
structure Pass.Faithful (p : Pass) : Prop where
  leaves {inside : Inside} {c d : Char} {r : List Char} (h : p.leaves inside c r = some d) :
    d = c ∨ c = '/' ∧ d = ' '
  feed {inside : Inside} {r : List Char} (h : Ready inside ('\n' :: r)) :
    p.leaves inside '\n' r = some '\n'
  turns (inside : Inside) (c : Char) (r : List Char) : Ready (p.turns inside c r) r
  ends {inside : Inside} {d : Char} (h : p.ends inside = some d) : d = ' '

/-- Taking out comments leaves line feeds, and puts in blanks alone. -/
theorem faithful_comments : comments.Faithful where
  leaves {inside c d r} h := by
    cases inside with
    | blockComment star =>
      simp only [comments] at h
      split at h
      · rename_i hend
        simp only [Bool.and_eq_true, beq_iff_eq] at hend
        exact Or.inr ⟨hend.2, (Option.some.inj h).symm⟩
      · split at h
        · exact Or.inl (Option.some.inj h).symm
        · cases h
    | blockStart => cases h
    | _ =>
      refine Or.inl ?_
      simp only [comments] at h
      grind
  feed {inside r} h := by
    cases inside with
    | blockStart => exact absurd rfl (h rfl)
    | blockComment star => simp [comments]
    | _ => rfl
  turns inside c r := by
    intro h
    cases inside with
    | text =>
      simp only [comments] at h
      grind
    | blockComment star =>
      simp only [comments] at h
      split at h <;> cases h
    | _ =>
      simp only [comments] at h
      grind
  ends {inside d} h := by
    simp only [comments] at h
    split at h
    · exact (Option.some.inj h).symm
    · cases h

/-- What is left of a character that may be a comma is the character. -/
theorem eq_of_leaves (h : trailingCommas.leaves inside c r = some d) : d = c := by
  cases inside <;> simp only [trailingCommas] at h <;> grind

/-- Taking out commas leaves line feeds, and puts in nothing. -/
theorem faithful_trailingCommas : trailingCommas.Faithful where
  leaves h := Or.inl (eq_of_leaves h)
  feed {inside r} h := by
    cases inside <;> rfl
  turns inside c r h := by
    cases inside <;> simp only [trailingCommas] at h <;> grind
  ends h := by cases h

namespace Pass.Faithful

variable {p : Pass}

/-- Every line feed is left, at its offset, and nothing else becomes one. -/
theorem filter_run (h : p.Faithful) (hready : Ready inside (os.map Prod.snd)) :
    (p.run last inside os).filter isFeed = os.filter isFeed := by
  -- A pass that skips the second character of a mark would lose a line feed there.
  induction os generalizing inside with
  | nil =>
    refine List.filter_eq_nil_iff.mpr fun o ho => ?_
    obtain ⟨d, hd, rfl⟩ := List.mem_map.mp ho
    rw [h.ends (Option.mem_toList.mp hd)]
    simp [isFeed]
  | cons o os ih =>
    obtain ⟨n, c⟩ := o
    rw [Pass.run, List.filter_append, ih (h.turns _ _ _)]
    by_cases hfeed : c = '\n'
    · subst hfeed
      rw [h.feed hready]
      rfl
    · have hother : isFeed (n, c) = false := by simpa [isFeed] using hfeed
      rw [List.filter_cons_of_neg (by simp [hother])]
      cases hleaves : p.leaves inside c (os.map Prod.snd) with
      | none => rfl
      | some d =>
        have hd : d ≠ '\n' := by
          rcases h.leaves hleaves with rfl | ⟨-, rfl⟩
          · exact hfeed
          · decide
        simp [isFeed, hd]

/-- What is left is a character that was there, or a blank for a slash or at the end. -/
theorem mem_run (h : p.Faithful) (ho : o ∈ p.run last inside os) :
    o ∈ os ∨ o.2 = ' ' ∧ (o.1 = last ∨ (o.1, '/') ∈ os) := by
  induction os generalizing inside with
  | nil =>
    obtain ⟨d, hd, rfl⟩ := List.mem_map.mp ho
    exact Or.inr ⟨h.ends (Option.mem_toList.mp hd), Or.inl rfl⟩
  | cons x os ih =>
    obtain ⟨n, c⟩ := x
    rcases List.mem_append.mp ho with ho | ho
    · obtain ⟨d, hd, rfl⟩ := List.mem_map.mp ho
      rcases h.leaves (Option.mem_toList.mp hd) with rfl | ⟨rfl, rfl⟩
      · exact Or.inl List.mem_cons_self
      · exact Or.inr ⟨rfl, Or.inr List.mem_cons_self⟩
    · rcases ih ho with ho | ⟨hblank, hlast | hslash⟩
      · exact Or.inl (List.mem_cons_of_mem _ ho)
      · exact Or.inr ⟨hblank, Or.inl hlast⟩
      · exact Or.inr ⟨hblank, Or.inr (List.mem_cons_of_mem _ hslash)⟩

end Pass.Faithful

/-- A pass writes at the offsets that it reads, in their order, and at the end. -/
theorem Pass.map_fst_run (p : Pass) (last : Nat) (inside : Inside) (os : List (Nat × Char)) :
    ((p.run last inside os).map Prod.fst).Sublist (os.map Prod.fst ++ [last]) := by
  induction os generalizing inside with
  | nil => cases h : p.ends inside <;> simp [Pass.run, h]
  | cons o os ih =>
    have hrest := ih (p.turns inside o.2 (os.map Prod.snd))
    rw [Pass.run, List.map_append, List.map_cons, List.cons_append]
    cases p.leaves inside o.2 (os.map Prod.snd) with
    | none => exact hrest.cons o.1
    | some d => exact hrest.cons_cons o.1

/-- Commas are taken out, and nothing is put in. -/
theorem sublist_run_trailingCommas (last : Nat) (inside : Inside) (os : List (Nat × Char)) :
    (trailingCommas.run last inside os).Sublist os := by
  induction os generalizing inside with
  | nil => exact List.Sublist.refl _
  | cons o os ih =>
    have hrest := ih (trailingCommas.turns inside o.2 (os.map Prod.snd))
    rw [Pass.run]
    cases hleaves : trailingCommas.leaves inside o.2 (os.map Prod.snd) with
    | none => exact hrest.cons o
    | some d =>
      obtain rfl := eq_of_leaves hleaves
      exact hrest.cons_cons o

/-- The characters of the clean text, each with the offset of the character of the content that is
read when it is written. What is written at the end stands at the offset of the end. -/
def origins (content : String) : List (Nat × Char) :=
  let last := bytesOf content.toList
  trailingCommas.run last .text (comments.run last .text (withOffsets 0 content.toList))

/-- The characters with an origin are those of the clean text. -/
theorem map_snd_origins (content : String) :
    (origins content).map Prod.snd = (clean content).toList := by
  rw [origins, map_snd_run_trailingCommas, map_snd_run_comments, Text.map_snd_withOffsets, clean,
    String.toList_ofList]

/-- In the text, nothing is skipped. -/
theorem ready_text (cs : List Char) : Ready .text cs := nofun

/-- The line feeds of the clean text come from those of the content, all of them and no others. -/
theorem filter_origins (content : String) :
    (origins content).filter isFeed = (withOffsets 0 content.toList).filter isFeed := by
  rw [origins, faithful_trailingCommas.filter_run (ready_text _),
    faithful_comments.filter_run (ready_text _)]

/-- The origins are in the order of the clean text. -/
theorem sorted_origins (content : String) :
    (origins content).Pairwise fun o o' => o.1 < o'.1 := by
  have hsorted := Text.sorted_withOffsets 0 content.toList
  rw [Nat.zero_add] at hsorted
  have hcomments := hsorted.sublist (comments.map_fst_run _ .text _)
  exact (List.pairwise_map.mp hcomments).sublist (sublist_run_trailingCommas _ _ _)

/-- The blank of a block comment, which is written at the slash that ends the comment, or at the end
of the text when none does. -/
def IsCommentBlank (content : String) (o : Nat × Char) : Prop :=
  o.2 = ' ' ∧ (o.1 = bytesOf content.toList ∨ (o.1, '/') ∈ withOffsets 0 content.toList)

/-- What is in the clean text was copied from the content, or is the blank of a block comment. -/
theorem mem_origins (ho : o ∈ origins content) :
    o ∈ withOffsets 0 content.toList ∨ IsCommentBlank content o :=
  faithful_comments.mem_run ((sublist_run_trailingCommas _ _ _).mem ho)

/-- Every character of the clean text is on the line of its origin. -/
theorem sameLines_origins (content : String) :
    List.Forall₂ (Text.SameLine (clean content).toList content.toList)
      (withOffsets 0 (clean content).toList) (origins content) := by
  rw [← map_snd_origins]
  exact Text.sameLines (filter_origins content) (sorted_origins content)

/-- There are as many line feeds in the clean text as in the content. -/
theorem count_clean (content : String) :
    (clean content).toList.count '\n' = content.toList.count '\n' := by
  have hcontent := Text.count_map_snd (withOffsets 0 content.toList)
  rw [Text.map_snd_withOffsets] at hcontent
  rw [← map_snd_origins, Text.count_map_snd, hcontent, List.countP_eq_length_filter,
    filter_origins, List.countP_eq_length_filter]

/-- A fault is told on the line behind a character of the content, which is the line of that
character but for a line feed: the character that was read when the one was written in which the
fault is noticed. When nothing is left of the content, which is then a single line, it is told on
that. -/
def IsToldInPlace (content : String) (fault : Json.Fault) : Prop :=
  (clean content = "" ∧ fault.line = 1) ∨
    ∃ i o, (i, o) ∈ (withOffsets 0 (clean content).toList).zip (origins content) ∧
      fault.NoticedIn (clean content) i ∧
      fault.line = (Text.positionAt (o.1 + 1) content.toList).line

/-- A fault in the clean text is told on the line of the content where it is noticed. -/
theorem isToldInPlace_of_parse {fault : Json.Fault} (h : parse content = .error fault) :
    IsToldInPlace content fault := by
  rcases Json.exists_noticedIn_of_parse h with hempty | ⟨i, hi, hnoticed⟩
  · exact Or.inl hempty
  · have hlines := sameLines_origins content
    have hlength := hlines.length_eq
    obtain ⟨⟨i, o⟩, ho, rfl⟩ : ∃ pair ∈ (withOffsets 0 (clean content).toList).zip
        (origins content), pair.1 = i := by
      rw [← List.mem_map, List.map_fst_zip hlength.le]
      exact hi
    have hline := (List.forall₂_zip hlines ho).behind
    exact Or.inr ⟨i, o, ho, hnoticed, (hnoticed.line_eq hi).trans hline⟩

/-- Every line feed of a text is left when comments and commas are taken out, and no other is put
in. What is left are characters of the text in their order, with blanks for block comments, and all
of them stand on the lines where they stood. So a text that is malformed is told to be so on the
line where the fault is in the text. -/
theorem clean_keepsLines (path : Path) (content : String) :
    (clean content).toList.count '\n' = content.toList.count '\n' ∧
      List.Forall₂ (Text.SameLine (clean content).toList content.toList)
        (withOffsets 0 (clean content).toList) (origins content) ∧
      (origins content).Pairwise (fun o o' => o.1 < o'.1) ∧
      (∀ o ∈ origins content, o ∈ withOffsets 0 content.toList ∨ IsCommentBlank content o) ∧
      ∀ e, parseText path content = .error e →
        ∃ fault, e = .parse path fault ∧ IsToldInPlace content fault := by
  refine ⟨count_clean content, sameLines_origins content, sorted_origins content,
    fun o => mem_origins, fun e he => ?_⟩
  obtain ⟨fault, hfault, rfl⟩ := exists_of_mapError_eq_error he
  exact ⟨fault, rfl, isToldInPlace_of_parse hfault⟩

/-- A line feed in a comment and one behind a comment both count, so what stands in front of a
comment that is not closed is told to be on the third line. -/
theorem clean_keepsLines_unclosed :
    parseText ⟨"/project/tsconfig.json"⟩ "[/*\n*/,]// one\n!/*\n" =
        .error (.parse ⟨"/project/tsconfig.json"⟩ ⟨.trailingCharacters, 3, 1⟩) ∧
      IsToldInPlace "[/*\n*/,]// one\n!/*\n" ⟨.trailingCharacters, 3, 1⟩ := by
  have hclean : clean "[/*\n*/,]// one\n!/*\n" = "[\n ]\n!\n " := by decide
  have hskip : (Place.ofText "[\n ]\n!\n ").skipBlanks = ⟨"[\n ]\n!\n ".toList, 1, 0⟩ := by
    simp [Place.ofText, Place.skipBlanks]
  have hvalue : readValue .keep depthLimit (Place.ofText "[\n ]\n!\n ") =
      .ok (.array [], ⟨['\n', '!', '\n', ' '], 2, 2⟩) := by
    rw [depthLimit, readValue_of_bracket (by rw [hskip]; rfl) (by decide), hskip]
    simp [Place.skipBlanks, readItems, nextItem, Place.next, bind, Except.bind, pure, Except.pure,
      Except.map, Char.utf8Size]
  have hread : parseText ⟨"/project/tsconfig.json"⟩ "[/*\n*/,]// one\n!/*\n" =
      .error (.parse ⟨"/project/tsconfig.json"⟩ ⟨.trailingCharacters, 3, 1⟩) := by
    simp [parseText, parse, hclean, Json.parse, bind, Except.bind, hvalue, readEnd,
      Place.skipBlanks, Place.faultAhead, Place.afterBytes, Place.next, Char.utf8Size,
      Except.mapError]
  obtain ⟨-, -, -, -, hfaults⟩ := clean_keepsLines ⟨"/project/tsconfig.json"⟩
    "[/*\n*/,]// one\n!/*\n"
  obtain ⟨fault, hfault, htold⟩ := hfaults _ hread
  obtain ⟨-, rfl⟩ := Project.Fault.parse.inj hfault
  exact ⟨hread, htold⟩

end ScriptModules.Project.Jsonc

import ScriptModules.Grammar.Program
import ScriptModules.Proofs.Grammar.Trees
import ScriptModules.Proofs.Text.Split

/-!
# How constructs end

What a rule says about the tree that it reads last: that it is there, that its text ends with a
character that is no line break, or that it is a closing parenthesis. Following the rules of all
symbols at once shows that the trees of every program are in their places.
-/

namespace ScriptModules.Grammar

open Text (bytesOf isBreak)

/-- What is known of the tree that was read last. -/
structure Last where
  /-- It is there, and it is no comment. -/
  real : Bool
  /-- Its text ends with a character that is no line break. -/
  plain : Bool
  /-- It is a closing parenthesis. -/
  close : Bool
  deriving DecidableEq, Repr

namespace Last

/-- All that there is to know. -/
def everything : Last := ⟨true, true, true⟩

/-- Nothing is known. -/
def nothing : Last := ⟨false, false, false⟩

/-- What is known either way. -/
def meet (a b : Last) : Last := ⟨a.real && b.real, a.plain && b.plain, a.close && b.close⟩

/-- Whether no more is known than something else tells. -/
def le (a b : Last) : Bool := (!a.real || b.real) && (!a.plain || b.plain) && (!a.close || b.close)

/-- What is known holds of the last one of some trees. -/
structure Holds (src : List Char) (l : Last) (forest : Forest) : Prop where
  real : l.real = true → ∃ t ∈ forest.getLast?, t.isComment = false
  plain : l.plain = true → ∃ t ∈ forest.getLast?, t.EndsPlain src
  close : l.close = true → ∃ t ∈ forest.getLast?, t.IsClose

variable {src : List Char} {l m : Last} {forest : Forest}

/-- Of any trees it holds that nothing is known. -/
theorem holds_nothing (forest : Forest) : nothing.Holds src forest where
  real h := absurd h Bool.false_ne_true
  plain h := absurd h Bool.false_ne_true
  close h := absurd h Bool.false_ne_true

/-- What holds is less than all that is known. -/
theorem Holds.of_le (h : m.Holds src forest) (hle : l.le m = true) : l.Holds src forest := by
  simp only [le, Bool.and_eq_true, Bool.or_eq_true, Bool.not_eq_true'] at hle
  obtain ⟨⟨hreal, hplain⟩, hclose⟩ := hle
  exact ⟨fun hl => h.real (hreal.resolve_left (by simp [hl])),
    fun hl => h.plain (hplain.resolve_left (by simp [hl])),
    fun hl => h.close (hclose.resolve_left (by simp [hl]))⟩

/-- What is known either way is known the first way. -/
theorem meet_le_left (l m : Last) : (l.meet m).le l = true := by
  simp only [meet, le]
  cases l.real <;> cases l.plain <;> cases l.close <;> simp

/-- What is known either way is known the second way. -/
theorem meet_le_right (l m : Last) : (l.meet m).le m = true := by
  simp only [meet, le]
  cases m.real <;> cases m.plain <;> cases m.close <;> simp

/-- Nothing is the least that can be known. -/
theorem nothing_le (l : Last) : nothing.le l = true := rfl

/-- The last of more trees is still the last one. -/
theorem Holds.append (h : l.Holds src forest) (left : Forest) : l.Holds src (left ++ forest) := by
  have hlast {p : Tree → Prop} : (∃ t ∈ forest.getLast?, p t) →
      ∃ t ∈ (left ++ forest).getLast?, p t := by
    rintro ⟨t, ht, hp⟩
    refine ⟨t, ?_, hp⟩
    rw [List.getLast?_append, Option.mem_def.mp ht]
    rfl
  exact ⟨fun hl => hlast (h.real hl), fun hl => hlast (h.plain hl), fun hl => hlast (h.close hl)⟩

end Last

/-- What a token says about the tree that it leaves. -/
def Terminal.last : Terminal → Last
  | .mark text _ | .tight text =>
    ⟨true, text.toList.getLast?.any (!isBreak ·), text == ")"⟩
  | .keyword kind text => ⟨kind != .comment, text.toList.getLast?.any (!isBreak ·), false⟩
  | .name kind _ => ⟨kind != .comment, true, false⟩
  | .lexeme kind _ form =>
    ⟨kind != .comment, [Form.privateName, .hyphenName, .string, .number].contains form, false⟩
  | .lineEnd _ => ⟨true, false, false⟩
  | .finish => .nothing

/-- Whether there may be a token of a kind when something is known of it. -/
def Kind.admitsToken (kind : Kind) (l : Last) : Bool :=
  (l.plain || !kind.isPlain) && !kind.isDetailed

/-- Whether a token is one that there may be. -/
def Terminal.isAdmitted : Terminal → Bool
  | t@(.mark text _) | t@(.tight text) => (Kind.mark text).admitsToken t.last
  | t@(.keyword kind _) | t@(.name kind _) | t@(.lexeme kind _ _) => kind.admitsToken t.last
  | .lineEnd _ | .finish => true

/-- Whether constructs of a kind may be made of what a part reads. -/
def Kind.admits (kind : Kind) (l : Last) (shape? : Option Shape) : Bool :=
  l.real && (l.plain || !kind.isPlain) && (kind != .parameters || l.close) &&
    kind.shape?.all (shape? == some ·)

/-- What is known of the tree that was read last after a rule, given what was known before it and
what is known of symbols. There is no answer where a rule makes a construct of a form that it must
not have. Of a rule that never applies there is nothing that does not hold. -/
def Rule.last? {σ : Type} (known : σ → Last) : Rule σ → Last → Option Last
  | deny empty, _ => some .everything
  | empty, l | check _, l | peek _, l | deny _, l => some l
  | token t, _ => if t.isAdmitted then some t.last else none
  | symbol s, _ => some (known s)
  | seq a b, l => (a.last? known l).bind (b.last? known)
  | alt a b, l => do return (← a.last? known l).meet (← b.last? known l)
  | many part, l => do return l.meet (← part.last? known .nothing)
  | group part, _ => part.last? known .nothing
  | node kind part, _ => do
    let l ← part.last? known .nothing
    if kind.admits l part.shape? then return ⟨kind != .comment, l.plain, false⟩ else none
  | absorb kind part, l => do
    let l ← part.last? known l
    if l.real && kind.admitsToken l then return ⟨kind != .comment, l.plain, false⟩ else none

/-- Trees of a text that were read one after the other from an offset up to a cursor. -/
structure Reading (src : List Char) (low : Nat) (l : Last) (forest : Forest) (c : Cursor) :
    Prop where
  place : c.IsPlace src
  stands : ∀ t ∈ forest, t.Stands src
  ordered : Ordered low c.offset forest
  last : l.Holds src forest

variable {src : List Char} {low : Nat} {l m : Last} {left forest new : Forest} {c after : Cursor}

namespace Reading

/-- Trees that were read are so with less known of the last one. -/
theorem of_le (h : Reading src low m forest c) (hle : l.le m = true) :
    Reading src low l forest c :=
  ⟨h.place, h.stands, h.ordered, h.last.of_le hle⟩

theorem nil (h : c.IsPlace src) : Reading src c.offset .nothing [] c where
  place := h
  stands _ ht := absurd ht List.not_mem_nil
  ordered := Nat.le_refl _
  last := Last.holds_nothing _

/-- What is read after other trees. -/
theorem append (h : Reading src low l left c) (hnew : Reading src c.offset m new after) :
    Reading src low m (left ++ new) after where
  place := hnew.place
  stands t ht := (List.mem_append.mp ht).elim (h.stands t) (hnew.stands t)
  ordered := h.ordered.append hnew.ordered
  last := hnew.last.append left

end Reading

/-- Blanks are skipped without reading a tree. -/
theorem Cursor.reading_skipBlanks (h : c.IsPlace src) :
    Reading src c.offset .nothing [] c.skipBlanks where
  place := h.advance _
  stands _ ht := absurd ht List.not_mem_nil
  ordered := offset_le_advance _ c
  last := Last.holds_nothing _

/-- A leaf is read up to where its text ends. -/
theorem Cursor.reading_leaf (kind : Kind) (n : Nat) (h : c.IsPlace src)
    (hkind : kind.isDetailed = false)
    (hplain : kind.isPlain = true → Lexeme.EndsPlain (c.rest.take n)) :
    Reading src c.offset .nothing [(c.leaf kind n).1] (c.leaf kind n).2 where
  place := h.advance n
  stands t ht := by
    obtain rfl := List.mem_singleton.mp ht
    have hslice := h.slice n
    exact .leaf (by simpa using hslice)
      (fun hk => Slice.endsPlain (t := (c.leaf kind n).1) hslice (hplain hk)) hkind
  ordered := ⟨Nat.le_refl _, offset_le_advance n c, Nat.le_refl _⟩
  last := Last.holds_nothing _

/-- Comments between tokens are read one after the other. -/
theorem Cursor.reading_skipTrivia (limit : Nat) (h : c.IsPlace src) :
    Reading src c.offset .nothing (c.skipTrivia limit).1 (c.skipTrivia limit).2 := by
  induction limit generalizing c with
  | zero => exact reading_skipBlanks h
  | succ limit ih =>
    have hblanks := reading_skipBlanks h
    rw [skipTrivia]
    dsimp only
    split
    · exact hblanks
    · rename_i n _
      have hcomment := reading_leaf .comment n hblanks.place rfl fun h => absurd h (by decide)
      exact hblanks.append (hcomment.append (ih hcomment.place))

/-- One token is read after comments, or without a gap. -/
theorem Cursor.reading_lexeme? {kind : Kind} {gap : Bool} {read? : List Char → Option Nat}
    (hplace : c.IsPlace src) (h : c.lexeme? kind gap read? = some (forest, after))
    (hkind : kind.admitsToken l = true) (hreal : l.real = true → kind ≠ .comment)
    (hplain : l.plain = true → ∀ cs n, read? cs = some n → Lexeme.EndsPlain (cs.take n))
    (hclose : l.close = true → kind = .mark ")" ∧
      ∀ cs n, read? cs = some n → cs.take n = ")".toList) :
    Reading src c.offset l forest after := by
  unfold lexeme? at h
  have hstart : Reading src c.offset .nothing (if gap = true then c.toToken else ([], c)).1
      (if gap = true then c.toToken else ([], c)).2 := by
    split
    · exact reading_skipTrivia _ hplace
    · exact .nil hplace
  dsimp only at h
  generalize (if gap = true then c.toToken else ([], c)).1 = comments at h hstart
  generalize (if gap = true then c.toToken else ([], c)).2 = start at h hstart
  obtain ⟨n, hread, heq⟩ := Option.map_eq_some_iff.mp h
  obtain ⟨rfl, rfl⟩ := Prod.mk.inj heq
  rw [Kind.admitsToken, Bool.and_eq_true, Bool.not_eq_true', Bool.or_eq_true,
    Bool.not_eq_true'] at hkind
  have hleaf := reading_leaf kind n hstart.place hkind.2 fun hk =>
    hplain (hkind.1.resolve_right (by simp [hk])) _ _ hread
  refine hstart.append ⟨hleaf.place, hleaf.stands, hleaf.ordered, ?_⟩
  refine ⟨fun hl => ⟨_, rfl, ?_⟩, fun hl => ⟨_, rfl, ?_⟩, fun hl => ⟨_, rfl, ?_⟩⟩
  · simpa [Tree.isComment, leaf, Tree.kind] using hreal hl
  · exact (hstart.place.slice n).endsPlain (hplain hl _ _ hread)
  · obtain ⟨rfl, htake⟩ := hclose hl
    refine ⟨⟨start.offset, (start.advance n).offset⟩, ?_⟩
    simp only [leaf, htake _ _ hread, String.ofList_toList]
    rfl

/-- A line end is read after comments and takes no text. -/
theorem Cursor.reading_lineEnd? {d : Dialect} {setting : LineEnd.Setting} {limit : Nat}
    (hplace : c.IsPlace src) (h : c.lineEnd? d setting limit = some (forest, after)) :
    Reading src c.offset ⟨true, false, false⟩ forest after := by
  induction limit generalizing c forest after with
  | zero => cases h
  | succ limit ih =>
    rw [lineEnd?] at h
    split at h
    · obtain ⟨rfl, rfl⟩ := Prod.mk.inj (Option.some.inj h)
      obtain ⟨hends, hstands, hordered, -⟩ :=
        reading_leaf .lineEnd 0 hplace rfl fun h => absurd h (by decide)
      exact ⟨hends, hstands, hordered, fun _ => ⟨_, rfl, rfl⟩,
        fun h => absurd h Bool.false_ne_true, fun h => absurd h Bool.false_ne_true⟩
    · have hblanks := reading_skipBlanks hplace
      dsimp only at h
      split at h
      · cases h
      · rename_i n _
        obtain ⟨⟨more, last⟩, hmore, heq⟩ := Option.map_eq_some_iff.mp h
        obtain ⟨rfl, rfl⟩ := Prod.mk.inj heq
        have hcomment := reading_leaf .comment n hblanks.place rfl fun h => absurd h (by decide)
        exact hblanks.append (hcomment.append (ih hcomment.place hmore))

/-- A text ends plainly if its last character is no line break. -/
theorem endsPlain_of_any {text : String} (h : text.toList.getLast?.any (!isBreak ·) = true) :
    Lexeme.EndsPlain text.toList := by
  obtain ⟨last, hlast, hbreak⟩ := (Option.any_eq_true _ _).mp h
  exact ⟨last, hlast, by simpa using hbreak⟩

/-- What a token says about the tree that it leaves. -/
theorem Terminal.reading {d : Dialect} {t : Terminal} (hplace : c.IsPlace src)
    (h : t.read? d c = some (forest, after)) (hadmitted : t.isAdmitted = true) :
    Reading src c.offset t.last forest after := by
  have hmark {text : String} {longer : List String} {gap : Bool} {l : Last}
      (hl : l = ⟨true, text.toList.getLast?.any (!isBreak ·), text == ")"⟩)
      (hkind : (Kind.mark text).admitsToken l = true)
      (h : c.lexeme? (.mark text) gap (Lexeme.mark? text longer) = some (forest, after)) :
      Reading src c.offset l forest after := by
    subst hl
    refine Cursor.reading_lexeme? hplace h hkind (fun _ => by simp)
      (fun hplain cs n hread => ?_) fun hclose => ?_
    · rw [Lexeme.take_of_mark? hread]
      exact endsPlain_of_any hplain
    · obtain rfl : text = ")" := beq_iff_eq.mp hclose
      exact ⟨rfl, fun cs n hread => Lexeme.take_of_mark? hread⟩
  have hreal {kind : Kind} : (kind != .comment) = true → kind ≠ .comment := by simp
  cases t with
  | mark text longer =>
    rw [read?] at h
    exact hmark rfl hadmitted h
  | tight text =>
    rw [read?] at h
    exact hmark rfl hadmitted h
  | keyword kind text =>
    rw [read?] at h
    refine Cursor.reading_lexeme? hplace h hadmitted hreal
      (fun hplain cs n hread => ?_) fun h => absurd h Bool.false_ne_true
    rw [Lexeme.take_of_keyword? hread]
    exact endsPlain_of_any hplain
  | name kind reserved =>
    rw [read?] at h
    refine Cursor.reading_lexeme? hplace h hadmitted hreal
      (fun _ cs n hread => ?_) fun h => absurd h Bool.false_ne_true
    obtain ⟨hplain, hne⟩ := Lexeme.plain_of_name? hread
    exact hplain.endsPlain hne
  | lexeme kind gap form =>
    rw [read?] at h
    refine Cursor.reading_lexeme? hplace h hadmitted hreal
      (fun hform cs n hread => ?_) fun h => absurd h Bool.false_ne_true
    simp only [last, List.contains_cons, List.contains_nil, Bool.or_false, Bool.or_eq_true,
      beq_iff_eq] at hform
    rcases hform with rfl | rfl | rfl | rfl
    · obtain ⟨hplain, hne⟩ := Lexeme.plain_of_privateName? hread
      exact hplain.endsPlain hne
    · obtain ⟨hplain, hne⟩ := Lexeme.plain_of_hyphenName? hread
      exact hplain.endsPlain hne
    · exact Lexeme.endsPlain_of_string? hread
    · obtain ⟨hplain, hpos⟩ := Lexeme.plain_of_number? hread
      have hne : cs ≠ [] := by
        rintro rfl
        cases hread
      exact hplain.endsPlain (by simp [hne, Nat.ne_of_gt hpos])
  | lineEnd setting =>
    rw [read?] at h
    exact Cursor.reading_lineEnd? hplace h
  | finish =>
    rw [read?] at h
    dsimp only at h
    split at h
    · obtain ⟨rfl, rfl⟩ := Prod.mk.inj (Option.some.inj h)
      exact Cursor.reading_skipTrivia _ hplace
    · cases h

/-- What is gathered under a node stands there as one tree. -/
theorem Reading.gather {kind : Kind} (offset : Nat) (h : Reading src low l forest c)
    (hreal : l.real = true) (hclose : kind = .parameters → l.close = true)
    (hplain : kind.isPlain = true → l.plain = true)
    (hshape : ∀ s ∈ kind.shape?, s.Matches (Forest.kinds forest)) :
    Reading src low ⟨kind != .comment, l.plain, false⟩ (Forest.gather kind offset forest) c := by
  obtain ⟨t, ht, hcomment⟩ := h.last.real hreal
  obtain ⟨front, rfl⟩ := List.getLast?_eq_some_iff.mp ht
  have hbody : Forest.kinds (((front ++ [t]).dropWhile Tree.isComment).filter
      (·.kind != .lineEnd)) = Forest.kinds (front ++ [t]) := Forest.kinds_body _
  have hhead : ∀ u ∈ [t].head?, u.isComment = false := by
    rintro u ⟨⟩
    exact hcomment
  rw [Text.dropWhile_append_of_head hhead] at hbody
  rw [Forest.gather, Text.takeWhile_append_of_head hhead, Text.dropWhile_append_of_head hhead]
  have hsplit : front ++ [t] =
      front.takeWhile Tree.isComment ++ (front.dropWhile Tree.isComment ++ [t]) := by
    rw [← List.append_assoc, List.takeWhile_append_dropWhile]
  have hordered := h.ordered
  rw [hsplit] at hordered
  obtain ⟨mid, hcomments, hrest⟩ := hordered.of_append
  generalize front.takeWhile Tree.isComment = comments at hsplit hcomments
  generalize front.dropWhile Tree.isComment = before at hsplit hrest hbody
  obtain ⟨hinside, hlow, hhigh⟩ := hrest.span (by simp) offset
  -- the node stops where the tree that was read last does
  have hstart : (Forest.span offset (before ++ [t])).start ≤ t.span.start :=
    (hinside.of_mem (by simp)).1
  have hstop := Forest.stop_span_concat offset before t
  have hends {children : Forest} (hl : l.plain = true) :
      (Tree.node kind (Forest.span offset (before ++ [t])) children).EndsPlain src := by
    obtain ⟨u, hu, a, b, r, hsrc, hb, hle, heq⟩ := h.last.plain hl
    obtain rfl : t = u := by simpa using hu
    exact ⟨a, b, r, hsrc, hb, hstart.trans hle, hstop.trans heq⟩
  refine ⟨h.place, fun u hu => ?_, hcomments.append ?_, ?_⟩
  · rcases List.mem_append.mp hu with hu | hu
    · exact h.stands u (hsplit ▸ List.mem_append_left _ hu)
    · obtain rfl := List.mem_singleton.mp hu
      refine .node (hinside.filter _) (fun v hv => ?_)
        (fun hkind => hends (hplain hkind))
        ⟨hstop ▸ ?_, fun hkind => ?_, fun s hs => hbody ▸ hshape s hs⟩
      · exact h.stands v (hsplit ▸ List.mem_append_right _ (List.mem_filter.mp hv).1)
      · exact (h.stands t (by simp)).isOffset_stop
      · obtain ⟨u, hu, span, rfl⟩ := h.last.close (hclose hkind)
        obtain rfl : t = _ := by simpa using hu
        exact ⟨_, by simp [Tree.kind], ⟨span, rfl⟩, hstop.symm⟩
  · exact ⟨hlow, hinside.le, hhigh⟩
  · exact ⟨fun hl => ⟨_, List.getLast?_concat .., by simpa [Tree.isComment, Tree.kind] using hl⟩,
      fun hl => ⟨_, List.getLast?_concat .., hends hl⟩, fun h => absurd h Bool.false_ne_true⟩

/-- What a rule says about the tree that was read last holds, if it does for the symbols. -/
theorem Rule.reading {σ : Type} {d : Dialect} {known : σ → Last}
    {readSymbol : σ → Cursor → Outcome}
    (hsymbol : ∀ s c forest after, c.IsPlace src → readSymbol s c = some (forest, after) →
      Reading src c.offset (known s) forest after)
    {r : Rule σ} (hlast : r.last? known l = some m) (hleft : Reading src low l left c)
    (h : r.read d readSymbol left c = some (forest, after)) :
    Reading src low m forest after := by
  induction r generalizing l m low left c forest after with
  | empty =>
    obtain rfl := Option.some.inj hlast
    obtain ⟨rfl, rfl⟩ := Prod.mk.inj (Option.some.inj h)
    exact hleft
  | token t =>
    obtain ⟨⟨new, last⟩, hread, heq⟩ := Option.map_eq_some_iff.mp h
    obtain ⟨rfl, rfl⟩ := Prod.mk.inj heq
    rw [last?] at hlast
    split at hlast
    · rename_i hadmitted
      obtain rfl := Option.some.inj hlast
      exact hleft.append (Terminal.reading hleft.place hread hadmitted)
    · cases hlast
  | symbol s =>
    obtain ⟨⟨new, last⟩, hread, heq⟩ := Option.map_eq_some_iff.mp h
    obtain ⟨rfl, rfl⟩ := Prod.mk.inj heq
    obtain rfl := Option.some.inj hlast
    exact hleft.append (hsymbol _ _ _ _ hleft.place hread)
  | absorb kind part ih =>
    obtain ⟨⟨all, last⟩, hread, heq⟩ := Option.map_eq_some_iff.mp h
    obtain ⟨rfl, rfl⟩ := Prod.mk.inj heq
    obtain ⟨k, hpart, hlast⟩ := Option.bind_eq_some_iff.mp hlast
    split at hlast
    · rename_i hreal
      obtain rfl := Option.some.inj hlast
      simp only [Bool.and_eq_true, Bool.not_eq_true', Kind.admitsToken, Kind.isDetailed,
        Bool.or_eq_false_iff, beq_eq_false_iff_ne, Bool.or_eq_true] at hreal
      obtain ⟨hreal, hplain, hclose, hshape⟩ := hreal
      refine (ih hpart hleft hread).gather _ hreal (fun hkind => absurd hkind hclose)
        (fun hkind => hplain.resolve_right (by simp [hkind])) fun s hs => ?_
      rw [Option.mem_def.mp hs] at hshape
      cases hshape
    · cases hlast
  | seq a b iha ihb =>
    obtain ⟨k, ha, hb⟩ := Option.bind_eq_some_iff.mp hlast
    rw [read] at h
    split at h
    · cases h
    · rename_i hfirst
      exact ihb hb (iha ha hleft hfirst) h
  | alt a b iha ihb =>
    obtain ⟨ka, ha, hlast⟩ := Option.bind_eq_some_iff.mp hlast
    obtain ⟨kb, hb, hlast⟩ := Option.bind_eq_some_iff.mp hlast
    obtain rfl := Option.some.inj hlast
    rw [read] at h
    split at h
    · exact (ihb hb hleft h).of_le (Last.meet_le_right ka kb)
    · exact (iha ha hleft h).of_le (Last.meet_le_left ka kb)
  | many part ih =>
    obtain ⟨k, hk, hlast⟩ := Option.bind_eq_some_iff.mp hlast
    obtain rfl := Option.some.inj hlast
    have hrun := repeatStep_induct (part.read d readSymbol)
      (motive := Reading src low (l.meet k))
      (fun before c forest after hbefore hread =>
        (ih hk (hbefore.of_le (Last.nothing_le _)) hread).of_le (Last.meet_le_right l k))
      (c.size + 1) (hleft.of_le (Last.meet_le_left l k))
    rw [read] at h
    rw [Option.some.inj h] at hrun
    exact hrun
  | group part ih =>
    obtain ⟨⟨new, last⟩, hread, heq⟩ := Option.map_eq_some_iff.mp h
    obtain ⟨rfl, rfl⟩ := Prod.mk.inj heq
    exact hleft.append (ih hlast (.nil hleft.place) hread)
  | node kind part ih =>
    obtain ⟨⟨new, last⟩, hread, heq⟩ := Option.map_eq_some_iff.mp h
    obtain ⟨rfl, rfl⟩ := Prod.mk.inj heq
    obtain ⟨k, hpart, hlast⟩ := Option.bind_eq_some_iff.mp hlast
    split at hlast
    · rename_i hadmits
      obtain rfl := Option.some.inj hlast
      simp only [Kind.admits, Bool.and_eq_true, Bool.or_eq_true, bne_iff_ne, Bool.not_eq_true',
        Option.all_eq_true, beq_iff_eq] at hadmits
      obtain ⟨⟨⟨hreal, hplain⟩, hclose⟩, hshape⟩ := hadmits
      refine hleft.append ((ih hpart (.nil hleft.place) hread).gather _ hreal
        (fun hkind => hclose.resolve_left (· hkind))
        (fun hkind => hplain.resolve_right (by simp [hkind])) fun s hs => ?_)
      obtain ⟨new', rfl, hmatches⟩ := matches_shape? (hshape s hs) hread
      exact hmatches
    · cases hlast
  | check accepts =>
    obtain rfl := Option.some.inj hlast
    rw [read] at h
    split at h
    · obtain ⟨rfl, rfl⟩ := Prod.mk.inj (Option.some.inj h)
      exact hleft
    · cases h
  | peek part =>
    obtain rfl := Option.some.inj hlast
    obtain ⟨-, -, heq⟩ := Option.map_eq_some_iff.mp h
    obtain ⟨rfl, rfl⟩ := Prod.mk.inj heq
    exact hleft
  | deny part =>
    rw [read] at h
    split at h
    · rename_i hdenied
      obtain ⟨rfl, rfl⟩ := Prod.mk.inj (Option.some.inj h)
      cases part with
      | empty => cases hdenied
      | _ => exact Option.some.inj hlast ▸ hleft
    · cases h

/-- What closes a construct, one after the other. -/
def Tail.all : List Tail := [.inner, .operand, .declared]

/-- All symbols. -/
def Symbol.all : List Symbol :=
  [.statement, .declaration, .block, .expressions, .arguments, .template, .pattern,
    .destructuring, .parameters, .propertyName, .decorator, .classBody, .typeArguments,
    .typeParameters, .objectType, .element] ++
  Tail.all.flatMap fun tail =>
    [.expression tail true, .expression tail false, .operand tail true, .operand tail false,
      .typed tail, .typeOperand tail]

/-- No symbol is left out. -/
theorem Symbol.mem_all (s : Symbol) : s ∈ Symbol.all := by
  cases s with
  | expression tail typed => cases tail <;> cases typed <;> decide
  | operand tail typed => cases tail <;> cases typed <;> decide
  | typed tail => cases tail <;> decide
  | typeOperand tail => cases tail <;> decide
  | _ => decide

/-- What is known of the tree that a symbol leaves last. Those that a line end may close are
only known to leave one. -/
def Symbol.last : Symbol → Last
  | .typed _ | .typeOperand _ | .typeArguments | .typeParameters | .parameters | .objectType
  | .arguments | .template | .propertyName => ⟨true, true, false⟩
  | _ => ⟨true, false, false⟩

/-- No more is known of a symbol than its rule says about it. -/
theorem Symbol.last_le (d : Dialect) (s : Symbol) :
    ∃ m, (rules d s).last? Symbol.last .nothing = some m ∧ s.last.le m = true := by
  have hall : (Symbol.all.all fun s =>
      ((rules d s).last? Symbol.last .nothing).any s.last.le) = true := by
    cases d <;> decide +kernel
  exact (Option.any_eq_true _ _).mp (List.all_eq_true.mp hall s s.mem_all)

/-- The trees that a symbol leaves stand in their places, whatever is read inside it. -/
theorem reading_symbol {d : Dialect} (depth : Nat) {s : Symbol} (hplace : c.IsPlace src)
    (h : readSymbol d (rules d) depth s c = some (forest, after)) :
    Reading src c.offset s.last forest after := by
  induction depth generalizing s c forest after with
  | zero => cases h
  | succ depth ih =>
    obtain ⟨m, hlast, hle⟩ := s.last_le d
    have hinside s c forest after (hplace : c.IsPlace src)
        (h : readSymbol d (rules d) depth s c = some (forest, after)) :
        Reading src c.offset s.last forest after := ih hplace h
    exact (Rule.reading hinside hlast (.nil hplace) h).of_le hle

/-- The trees of a program stand in their places. -/
theorem stands_of_parse? {d : Dialect} {source : String} {tree : Tree}
    (h : parse? d source = some tree) : tree.Stands source.toList := by
  obtain ⟨⟨forest, last⟩, hread, rfl⟩ := Option.map_eq_some_iff.mp h
  have hlast : program.last? Symbol.last .nothing = some .nothing := by decide +kernel
  obtain ⟨⟨front, hsource, hoffset⟩, hstands, hordered, -⟩ := Rule.reading
    (fun s _ _ _ => reading_symbol (s := s) (d := d) (depthBound _)) hlast
    (.nil (Cursor.isPlace_ofText source.toList)) hread
  exact .node hordered hstands nofun ⟨⟨front, _, hsource, hoffset⟩, nofun, nofun⟩

end ScriptModules.Grammar

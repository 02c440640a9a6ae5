import ScriptModules.Proofs.Except
import ScriptModules.Proofs.Grammar.Trees
import ScriptModules.Proofs.Text.Offsets
import ScriptModules.Strip.Survey

/-!
# Parentheses that move

What a survey records at a construct, and the closing parentheses that it moves behind what an
arrow function says about its result. Constructs stand apart from one another, so no two
parentheses leave the same place or go to the same one.
-/

namespace ScriptModules.Strip

open Grammar (Forest Kind Ordered Span Tree)
open Text (bytesOf isBreak withOffsets)

variable {source : List Char} {export? : Option Span} {next? : Option Tree} {t u : Tree}
  {ts us : Forest} {f g : Findings} {low high : Nat}

namespace Findings

@[simp] theorem blanks_append (f g : Findings) : (f ++ g).blanks = f.blanks ++ g.blanks := rfl

@[simp] theorem moved_append (f g : Findings) : (f ++ g).moved = f.moved ++ g.moved := rfl

@[simp] theorem append_empty (f : Findings) : f ++ ({} : Findings) = f := by
  change Findings.append f {} = f
  simp [append]

end Findings

/-- What an action records where it stands. -/
def Action.findings : Action → Findings
  | .record f | .descend f | .descendFirst f => f
  | .refuse _ | .importStatement => {}

/-- A tree of types is blanked and not looked into. -/
theorem actionAt_of_isTypeOnly (h : isTypeOnly t.kind = true) :
    actionAt source export? next? t = .record (.ofBlanks [t.span]) := if_pos h

/-- An arrow function is looked into, with what it says about its result. -/
theorem actionAt_of_arrow (h : t.kind = .arrow) :
    actionAt source export? next? t = .descend (surveyReturnType source t) := by
  simp [actionAt, h, isTypeOnly, isTypeDeclaration]

/-- Only arrow functions move anything. -/
theorem moved_actionAt (h : t.kind ≠ .arrow) :
    (actionAt source export? next? t).findings.moved = [] := by
  unfold actionAt
  dsimp only
  split
  · rfl
  · split
    · rfl
    · split <;> first | contradiction | rfl | (split <;> first | rfl | (split <;> rfl))

/-- In an import statement nothing moves. -/
theorem moved_surveyImport (h : surveyImport t = .ok f) : f.moved = [] := by
  unfold surveyImport at h
  split at h
  · cases h
  · split at h
    · cases h
      rfl
    · split at h <;> cases h <;> rfl

/-- What a survey of a tree goes through. -/
theorem survey_cases (h : survey source export? next? t = .ok f) :
    actionAt source export? next? t = .record f ∨
    (actionAt source export? next? t = .importStatement ∧ surveyImport t = .ok f) ∨
    (∃ found rest, actionAt source export? next? t = .descend found ∧
      surveyAll source (exportRange? t) t.children = .ok rest ∧ f = found ++ rest) ∨
    ∃ found rest, actionAt source export? next? t = .descendFirst found ∧
      surveyFirst source t.children = .ok rest ∧ f = found ++ rest := by
  rw [survey.eq_def] at h
  split at h
  · cases h
  · cases h
    exact .inl ‹_›
  · exact .inr (.inl ⟨‹_›, h⟩)
  · cases h
    exact .inr (.inr (.inl ⟨f, {}, ‹_›, rfl, f.append_empty.symm⟩))
  · cases h
    exact .inr (.inr (.inr ⟨f, {}, ‹_›, rfl, f.append_empty.symm⟩))
  · obtain ⟨rest, hrest, rfl⟩ := exists_of_map_eq_ok h
    exact .inr (.inr (.inl ⟨_, rest, ‹_›, hrest, rfl⟩))
  · obtain ⟨rest, hrest, rfl⟩ := exists_of_map_eq_ok h
    exact .inr (.inr (.inr ⟨_, rest, ‹_›, hrest, rfl⟩))

/-- All trees of types are blanked. -/
theorem mem_blanks_of_isTypeOnly (h : surveyAll source export? ts = .ok f) (ht : t ∈ ts)
    (htype : isTypeOnly t.kind = true) : t.span ∈ f.blanks := by
  induction ts generalizing f with
  | nil => cases ht
  | cons u ts ih =>
    obtain ⟨found, hfound, h⟩ := exists_of_bind_eq_ok h
    obtain ⟨more, hmore, h⟩ := exists_of_bind_eq_ok h
    obtain rfl := Except.ok.inj h
    rcases List.mem_cons.mp ht with rfl | ht
    · rcases survey_cases hfound with haction | ⟨haction, -⟩ | ⟨_, _, haction, -⟩ |
        ⟨_, _, haction, -⟩ <;> rw [actionAt_of_isTypeOnly htype] at haction <;> cases haction
      exact List.mem_append_left _ (List.mem_singleton_self _)
    · exact List.mem_append_right _ (ih hmore ht)

/-- A closing parenthesis that goes to another place; offsets count bytes. -/
structure Move where
  /-- The arrow function that it closes the parameters of. -/
  arrow : Tree
  /-- The offset of the parenthesis. -/
  origin : Nat
  /-- The offset of the character that it takes the place of. -/
  target : Nat

namespace Move

/-- The offsets at which a move changes a text. -/
def offsets (m : Move) : List Nat := [m.origin, m.target]

/-- The parenthesis closes the parameters of the arrow function, and it goes to the last character
of what the function says about its result. -/
structure Fits (source : List Char) (m : Move) : Prop where
  arrow : m.arrow.kind = .arrow
  origin : ∃ parameters ∈ m.arrow.child? .parameters,
    parameters.span.holds m.origin = true ∧ parameters.span.stop = m.origin + 1
  close : (m.origin, ')') ∈ withOffsets 0 source
  target : ∃ result ∈ m.arrow.children.find? (·.kind.isResult), result.span.holds m.target = true ∧
    ∃ last, (m.target, last) ∈ withOffsets 0 source ∧ isBreak last = false ∧
      result.span.stop = m.target + last.utf8Size

end Move

/-- What a function says about its result is a tree of types. -/
theorem isTypeOnly_of_isResult {kind : Kind} (h : kind.isResult = true) :
    isTypeOnly kind = true := by
  simp only [Kind.isResult, Bool.or_eq_true, beq_iff_eq] at h
  rcases h with (rfl | rfl) | rfl <;> rfl

/-- A child of a kind is one of the children. -/
theorem mem_of_child? {kind : Kind} (h : t.child? kind = some u) :
    u ∈ t.children ∧ u.kind = kind :=
  ⟨List.mem_of_find?_eq_some h, by simpa using List.find?_some h⟩

/-- The result that is found is one of the children. -/
theorem mem_of_result? (h : t.children.find? (·.kind.isResult) = some u) :
    u ∈ t.children ∧ u.kind.isResult = true :=
  ⟨List.mem_of_find?_eq_some h, List.find?_some (p := fun u : Tree => u.kind.isResult) h⟩

/-- Parameters are no result. -/
theorem ne_of_isResult (h : t.kind = .parameters) (h' : u.kind.isResult = true) : t ≠ u := by
  rintro rfl
  rw [h] at h'
  cases h'

/-- The closing parenthesis of parameters is their last character. -/
theorem close_of_parameters (h : t.Stands source) (hkind : t.kind = .parameters) :
    ∃ origin, (origin, ')') ∈ withOffsets 0 source ∧ t.span.stop = origin + 1 ∧
      t.span.start ≤ origin ∧ ∃ front close, t.children = front ++ [close] ∧
        close.children = [] ∧ close.span.start = origin := by
  cases h with
  | leaf _ _ hdetail =>
    obtain rfl := hkind
    cases hdetail
  | @node kind span children hordered hchildren _ hdetail =>
    obtain ⟨close, hlast, ⟨closeSpan, rfl⟩, hstop⟩ := hdetail.closed hkind
    obtain ⟨front, rfl⟩ := List.getLast?_eq_some_iff.mp hlast
    have hmem : Tree.leaf (.mark ")") closeSpan ")" ∈ front ++ [.leaf (.mark ")") closeSpan ")"] :=
      List.mem_append_right _ (List.mem_singleton_self _)
    cases hchildren _ hmem with
    | leaf hslice =>
      obtain ⟨before, back, hsource, hstart, hend⟩ := hslice
      rw [Text.bytesOf_append] at hend
      refine ⟨bytesOf before, ?_, hstop.symm.trans hend, ?_, front, _, rfl, rfl, hstart⟩
      · exact Text.mem_withOffsets.mpr ⟨before, back, by simpa using hsource, by simp⟩
      · exact (hordered.of_mem hmem).1.trans (Nat.le_of_eq hstart)

/-- The last of the characters between two offsets, when they end with a character. -/
theorem getLast?_between {front back : List Char} {last : Char} {low high : Nat}
    (hsource : source = front ++ last :: back) (hlow : low ≤ bytesOf front)
    (hhigh : high = bytesOf front + last.utf8Size) :
    ((withOffsets 0 source).filter fun (offset, _) => low ≤ offset && offset < high).getLast? =
      some (bytesOf front, last) := by
  have hback : (withOffsets high back).filter (fun (offset, _) =>
      low ≤ offset && offset < high) = [] := by
    rw [List.filter_eq_nil_iff]
    rintro ⟨offset, c⟩ hmem
    obtain ⟨before, -, -, rfl⟩ := Text.mem_withOffsets.mp hmem
    simp
  have hsize := last.utf8Size_pos
  rw [hsource, Text.withOffsets_append, withOffsets, Nat.zero_add, ← hhigh, List.filter_append,
    List.filter_cons_of_pos (by simp; omega), hback, List.getLast?_concat]

/-- What a survey finds about the result of an arrow function is a move, if anything. -/
theorem surveyReturnType_cases (h : t.Stands source) (hkind : t.kind = .arrow) :
    surveyReturnType source t = {} ∨ ∃ m : Move, m.arrow = t ∧ m.Fits source ∧
      surveyReturnType source t =
        ⟨[⟨m.origin, m.origin + 1⟩], [], [], [⟨m.target, ')'⟩]⟩ := by
  unfold surveyReturnType
  dsimp only
  split
  · rename_i parameters result hparameters hresult
    obtain ⟨hmem, hparametersKind⟩ := mem_of_child? hparameters
    obtain ⟨hmem', hresultKind⟩ := mem_of_result? hresult
    obtain ⟨origin, hclose, hstop, hstart, -⟩ :=
      close_of_parameters (h.of_mem hmem) hparametersKind
    obtain ⟨front, last, back, hsource, hbreak, hlow, hhigh⟩ :=
      (h.of_mem hmem').endsPlain (by rw [Kind.isPlain, hresultKind, Bool.true_or])
    rcases h.ordered.apart hmem hmem' (ne_of_isResult hparametersKind hresultKind) with hle | hle
    · rw [getLast?_between hsource (hle.trans hlow) hhigh]
      dsimp only
      split
      · have hsize := last.utf8Size_pos
        refine .inr ⟨⟨_, origin, bytesOf front⟩, rfl, ?_, by rw [hstop]; rfl⟩
        refine ⟨hkind, ⟨parameters, hparameters, ?_, hstop⟩, hclose,
          ⟨result, hresult, ?_, last, ?_, hbreak, hhigh⟩⟩
        · simp [Span.holds, hstart, hstop]
        · simp [Span.holds, hlow, hhigh, hsize]
        · exact Text.mem_withOffsets.mpr ⟨front, back, hsource, by simp⟩
      · exact .inl rfl
    · have hnone : (withOffsets 0 source).filter (fun (offset, _) =>
          parameters.span.stop ≤ offset && offset < result.span.stop) = [] := by
        rw [List.filter_eq_nil_iff]
        rintro ⟨offset, c⟩ -
        simp
        omega
      rw [hnone]
      exact .inl rfl
  · exact .inl rfl

/-- What is found inside a tree may change the text at an offset: not inside types, and not where
parameters are closed. -/
structure MayChange (t : Tree) (offset : Nat) : Prop where
  inner : t.children ≠ []
  holds : t.span.holds offset = true
  result : t.kind.isResult = false
  parameters : t.kind = .parameters → offset + 1 < t.span.stop

/-- The moves that were found in some trees. No two of them change the text at one offset. -/
structure Moves (source : List Char) (ts : Forest) (f : Findings) (moves : List Move) : Prop where
  moved : f.moved = moves.map fun m => ⟨m.target, ')'⟩
  blanked : ∀ m ∈ moves, ∀ offset ∈ m.offsets, ∃ r ∈ f.blanks, r.holds offset = true
  fits : ∀ m ∈ moves, m.Fits source
  inside : ∀ m ∈ moves, m.arrow ∈ Tree.preorderAll ts
  nodup : (moves.flatMap Move.offsets).Nodup
  within : ∀ offset ∈ moves.flatMap Move.offsets, ∃ t ∈ ts, MayChange t offset

variable {moves others : List Move}

namespace Moves

/-- Where nothing moves there are no moves. -/
theorem none (ts : Forest) (h : f.moved = []) : Moves source ts f [] where
  moved := h
  blanked _ hm := absurd hm List.not_mem_nil
  fits _ hm := absurd hm List.not_mem_nil
  inside _ hm := absurd hm List.not_mem_nil
  nodup := List.nodup_nil
  within _ hm := absurd hm List.not_mem_nil

/-- Nothing but parentheses moves. -/
theorem close (h : Moves source ts f moves) : ∀ m ∈ f.moved, m.char = ')' := by
  rw [h.moved]
  rintro _ hm
  obtain ⟨m, -, rfl⟩ := List.mem_map.mp hm
  rfl

/-- Other findings change nothing about moves. -/
theorem more (h : Moves source ts f moves) (hg : g.moved = []) :
    Moves source ts (g ++ f) moves where
  moved := by rw [Findings.moved_append, hg, List.nil_append, h.moved]
  blanked m hm offset ho :=
    (h.blanked m hm offset ho).imp fun _ hr => ⟨List.mem_append_right _ hr.1, hr.2⟩
  fits := h.fits
  inside := h.inside
  nodup := h.nodup
  within := h.within

/-- Trees that stand one after the other are changed in different places. -/
theorem append (hordered : Ordered low high (ts ++ us)) (h : Moves source ts f moves)
    (h' : Moves source us g others) :
    Moves source (ts ++ us) (f ++ g) (moves ++ others) where
  moved := by rw [Findings.moved_append, h.moved, h'.moved, List.map_append]
  blanked m hm offset ho := by
    rcases List.mem_append.mp hm with hm | hm
    · exact (h.blanked m hm offset ho).imp fun _ hr => ⟨List.mem_append_left _ hr.1, hr.2⟩
    · exact (h'.blanked m hm offset ho).imp fun _ hr => ⟨List.mem_append_right _ hr.1, hr.2⟩
  fits m hm := (List.mem_append.mp hm).elim (h.fits m) (h'.fits m)
  inside m hm := by
    rw [Tree.preorderAll_append]
    exact List.mem_append.mpr ((List.mem_append.mp hm).imp (h.inside m) (h'.inside m))
  nodup := by
    rw [List.flatMap_append, List.nodup_append]
    refine ⟨h.nodup, h'.nodup, ?_⟩
    rintro offset ho _ ho' rfl
    obtain ⟨t, ht, hchange⟩ := h.within _ ho
    obtain ⟨u, hu, hchange'⟩ := h'.within _ ho'
    obtain ⟨mid, hfront, hback⟩ := hordered.of_append
    have := (hfront.of_mem ht).2.2
    have := (hback.of_mem hu).1
    have := hchange.holds
    have := hchange'.holds
    simp only [Span.holds, Bool.and_eq_true, decide_eq_true_eq] at *
    omega
  within offset ho := by
    rw [List.flatMap_append] at ho
    rcases List.mem_append.mp ho with ho | ho
    · exact (h.within offset ho).imp fun _ ht => ⟨List.mem_append_left _ ht.1, ht.2⟩
    · exact (h'.within offset ho).imp fun _ ht => ⟨List.mem_append_right _ ht.1, ht.2⟩

/-- The moves of the parts of a construct are moves of the construct. -/
theorem up (hstands : t.Stands source) (hresult : t.kind.isResult = false)
    (h : Moves source t.children f moves) : Moves source [t] f moves where
  moved := h.moved
  blanked := h.blanked
  fits := h.fits
  inside m hm := by
    rw [Tree.preorderAll_singleton, Tree.preorder_eq]
    exact List.mem_cons_of_mem _ (h.inside m hm)
  nodup := h.nodup
  within offset ho := by
    obtain ⟨u, hu, hchange⟩ := h.within offset ho
    have hspan := hstands.ordered.of_mem hu
    have hholds := hchange.holds
    simp only [Span.holds, Bool.and_eq_true, decide_eq_true_eq] at hholds
    refine ⟨t, List.mem_singleton_self t, List.ne_nil_of_mem hu, ?_, hresult, fun hkind => ?_⟩
    · simp only [Span.holds, Bool.and_eq_true, decide_eq_true_eq]
      omega
    · obtain ⟨origin, -, hstop, -, front, close, hchildren, hclose, hstart⟩ :=
        close_of_parameters hstands hkind
      have hordered := hstands.ordered
      rw [hchildren] at hu hordered
      rcases List.mem_append.mp hu with hu | hu
      · obtain ⟨before, between, rfl⟩ := List.append_of_mem hu
        rw [List.append_assoc, List.cons_append] at hordered
        have := hordered.le_of_append (u := close) (by simp)
        omega
      · obtain rfl := List.mem_singleton.mp hu
        exact absurd hclose hchange.inner

/-- One more move, which changes the text in other places. -/
theorem cons {m : Move} (h : Moves source ts f moves) (hfits : m.Fits source)
    (hinside : m.arrow ∈ Tree.preorderAll ts)
    (htarget : ∃ r ∈ f.blanks, r.holds m.target = true)
    (hnodup : (m.offsets ++ moves.flatMap Move.offsets).Nodup)
    (hwithin : ∀ offset ∈ m.offsets, ∃ t ∈ ts, MayChange t offset) :
    Moves source ts (⟨[⟨m.origin, m.origin + 1⟩], [], [], [⟨m.target, ')'⟩]⟩ ++ f)
      (m :: moves) where
  moved := by
    rw [Findings.moved_append, h.moved]
    rfl
  blanked m' hm' offset ho := by
    rw [Findings.blanks_append]
    rcases List.mem_cons.mp hm' with rfl | hm'
    · simp only [Move.offsets, List.mem_cons, List.not_mem_nil, or_false] at ho
      rcases ho with rfl | rfl
      · exact ⟨_, List.mem_append_left _ (List.mem_singleton_self _), by simp [Span.holds]⟩
      · exact htarget.imp fun _ hr => ⟨List.mem_append_right _ hr.1, hr.2⟩
    · exact (h.blanked m' hm' offset ho).imp fun _ hr => ⟨List.mem_append_right _ hr.1, hr.2⟩
  fits := List.forall_mem_cons.mpr ⟨hfits, h.fits⟩
  inside := List.forall_mem_cons.mpr ⟨hinside, h.inside⟩
  nodup := hnodup
  within offset ho := (List.mem_append.mp ho).elim (hwithin offset) (h.within offset)

/-- The move of an arrow function, if any, beside those of its parts. -/
theorem arrow (hstands : t.Stands source) (hkind : t.kind = .arrow)
    (h : Moves source t.children f moves)
    (hresults : ∀ u ∈ t.children, u.kind.isResult = true → u.span ∈ f.blanks) :
    ∃ all, Moves source [t] (surveyReturnType source t ++ f) all := by
  have hresult : t.kind.isResult = false := by rw [hkind]; rfl
  have hup := h.up hstands hresult
  rcases surveyReturnType_cases hstands hkind with hnone | ⟨m, rfl, hfits, hfound⟩
  · exact ⟨moves, hup.more (by rw [hnone])⟩
  obtain ⟨parameters, hparameters, hholds, hstop⟩ := hfits.origin
  obtain ⟨result, hresult', hholds', -⟩ := hfits.target
  obtain ⟨hmem, hparametersKind⟩ := mem_of_child? hparameters
  obtain ⟨hmem', hresultKind⟩ := mem_of_result? hresult'
  -- the parts change nothing where the parameters are closed, nor in the result
  have horigin : m.origin ∉ moves.flatMap Move.offsets := by
    intro ho
    obtain ⟨u, hu, hchange⟩ := h.within _ ho
    obtain rfl := hstands.ordered.eq_of_holds hu hmem hchange.holds hholds
    have := hchange.parameters hparametersKind
    omega
  have htarget : m.target ∉ moves.flatMap Move.offsets := by
    intro ho
    obtain ⟨u, hu, hchange⟩ := h.within _ ho
    obtain rfl := hstands.ordered.eq_of_holds hu hmem' hchange.holds hholds'
    rw [hchange.result] at hresultKind
    cases hresultKind
  have hne : m.origin ≠ m.target := by
    intro heq
    rw [← heq] at hholds'
    exact ne_of_isResult hparametersKind hresultKind
      (hstands.ordered.eq_of_holds hmem hmem' hholds hholds')
  have hwithin {u : Tree} {offset : Nat} (hu : u ∈ m.arrow.children)
      (hoffset : u.span.holds offset = true) : MayChange m.arrow offset := by
    have hspan := hstands.ordered.of_mem hu
    refine ⟨List.ne_nil_of_mem hu, ?_, hresult, fun hparameters => ?_⟩
    · simp only [Span.holds, Bool.and_eq_true, decide_eq_true_eq] at hoffset ⊢
      omega
    · rw [hkind] at hparameters
      cases hparameters
  rw [hfound]
  refine ⟨m :: moves, hup.cons hfits ?_ ⟨_, hresults _ hmem' hresultKind, hholds'⟩ ?_ ?_⟩
  · rw [Tree.preorderAll_singleton, Tree.preorder_eq]
    exact List.mem_cons_self
  · rw [Move.offsets, List.cons_append, List.cons_append, List.nil_append, List.nodup_cons,
      List.nodup_cons, List.mem_cons, not_or]
    exact ⟨⟨hne, horigin⟩, htarget, h.nodup⟩
  · exact List.forall_mem_cons.mpr ⟨⟨_, List.mem_singleton_self _, hwithin hmem hholds⟩,
      List.forall_mem_singleton.mpr ⟨_, List.mem_singleton_self _, hwithin hmem' hholds'⟩⟩

end Moves

/-- What surveys of single trees move, a survey of all of them moves. -/
theorem exists_moves_of_surveyAll
    (ih : ∀ t ∈ ts, ∀ export? next? f, survey source export? next? t = .ok f →
      ∃ moves, Moves source [t] f moves)
    (hordered : Ordered low high ts) (h : surveyAll source export? ts = .ok f) :
    ∃ moves, Moves source ts f moves := by
  induction ts generalizing f low with
  | nil => exact ⟨[], .none _ (by cases h; rfl)⟩
  | cons t ts ihs =>
    obtain ⟨found, hfound, h⟩ := exists_of_bind_eq_ok h
    obtain ⟨more, hmore, h⟩ := exists_of_bind_eq_ok h
    obtain rfl := Except.ok.inj h
    obtain ⟨moves, hmoves⟩ := ih t List.mem_cons_self _ _ _ hfound
    obtain ⟨others, hothers⟩ :=
      ihs (fun u hu => ih u (List.mem_cons_of_mem _ hu)) hordered.2.2 hmore
    exact ⟨moves ++ others, hmoves.append hordered hothers⟩

/-- The moves in the first of some trees are the moves in all of them, as far as these are looked
at. -/
theorem exists_moves_of_surveyFirst
    (ih : ∀ t ∈ ts, ∀ export? next? f, survey source export? next? t = .ok f →
      ∃ moves, Moves source [t] f moves)
    (hordered : Ordered low high ts) (h : surveyFirst source ts = .ok f) :
    ∃ moves, Moves source ts f moves := by
  cases ts with
  | nil => exact ⟨[], .none _ (by cases h; rfl)⟩
  | cons t ts =>
    obtain ⟨moves, hmoves⟩ := ih t List.mem_cons_self _ _ _ h
    have hall := hmoves.append hordered (Moves.none ts (f := {}) rfl)
    rw [Findings.append_empty] at hall
    exact ⟨_, hall⟩

/-- What the parts of a tree in its place move, the tree moves, beside what it moves itself. -/
theorem exists_moves_of_children (hstands : t.Stands source)
    (ih : ∀ u ∈ t.children, ∀ export? next? f, survey source export? next? u = .ok f →
      ∃ moves, Moves source [u] f moves)
    (h : survey source export? next? t = .ok f) : ∃ moves, Moves source [t] f moves := by
  have hresult (hne : ∀ found, actionAt source export? next? t ≠ .record found) :
      t.kind.isResult = false :=
    Bool.eq_false_iff.mpr fun hkind =>
      hne _ (actionAt_of_isTypeOnly (isTypeOnly_of_isResult hkind))
  by_cases harrow : t.kind = .arrow
  · rcases survey_cases h with haction | ⟨haction, -⟩ | ⟨found, rest, haction, hrest, rfl⟩ |
      ⟨_, _, haction, -⟩ <;> rw [actionAt_of_arrow harrow] at haction <;> cases haction
    obtain ⟨moves, hmoves⟩ := exists_moves_of_surveyAll ih hstands.ordered hrest
    exact hmoves.arrow hstands harrow fun u hu hkind =>
      mem_blanks_of_isTypeOnly hrest hu (isTypeOnly_of_isResult hkind)
  · have hmoved : (actionAt source export? next? t).findings.moved = [] := moved_actionAt harrow
    rcases survey_cases h with haction | ⟨-, himport⟩ | ⟨found, rest, haction, hrest, rfl⟩ |
      ⟨found, rest, haction, hrest, rfl⟩
    · rw [haction] at hmoved
      exact ⟨[], .none _ hmoved⟩
    · exact ⟨[], .none _ (moved_surveyImport himport)⟩
    · rw [haction] at hmoved
      obtain ⟨moves, hmoves⟩ := exists_moves_of_surveyAll ih hstands.ordered hrest
      exact ⟨moves, (hmoves.up hstands (hresult (by simp [haction]))).more hmoved⟩
    · rw [haction] at hmoved
      obtain ⟨moves, hmoves⟩ := exists_moves_of_surveyFirst ih hstands.ordered hrest
      exact ⟨moves, (hmoves.up hstands (hresult (by simp [haction]))).more hmoved⟩

/-- A survey of a tree in its place moves parentheses of arrow functions, and nothing else. -/
theorem exists_moves_of_survey (hstands : t.Stands source)
    (h : survey source export? next? t = .ok f) : ∃ moves, Moves source [t] f moves := by
  induction hstands generalizing export? next? f with
  | leaf hslice hplain hkind =>
    exact exists_moves_of_children (.leaf hslice hplain hkind) nofun h
  | node hordered hchildren hplain hdetail ih =>
    exact exists_moves_of_children (.node hordered hchildren hplain hdetail)
      (fun u hu _ _ _ => ih u hu) h

end ScriptModules.Strip

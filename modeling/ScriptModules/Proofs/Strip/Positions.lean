import Mathlib.Data.Finset.Card
import ScriptModules.Proofs.Grammar.Endings
import ScriptModules.Proofs.Strip.Blanking
import ScriptModules.Proofs.Strip.Moves

/-!
# Stripping keeps every position

The text that is left of a program has as many UTF-16 code units as the program, and the same line
breaks. At every other place stands what stood there, a space, or a parenthesis that moved there.
-/

namespace ScriptModules

open Text (bytesOf codeUnits codeUnitsOf isBreak units unitsOf withOffsets)

namespace Strip

open Grammar (Span Tree)

variable {ranges : List Span} {moved : List Moved} {source code : List Char} {moves : List Move}
  {front back : List Char} {c : Char} {o j : Nat}

/-- A space is one code unit. -/
theorem codeUnitsOf_replicate_space (n : Nat) :
    codeUnitsOf (List.replicate n ' ') = List.replicate n 32 := by
  induction n with
  | zero => rfl
  | succ n ih => rw [List.replicate_succ, Text.codeUnitsOf_cons, ih]; rfl

/-- A blanked character leaves spaces, the first of which may be a parenthesis that moved. -/
theorem codeUnitsOf_blankOf (hclose : ∀ m ∈ moved, m.char = ')') (o : Nat) (c : Char) :
    codeUnitsOf (blankOf moved o c) =
      (if moved.any (·.offset == o) then 41 else 32) :: List.replicate (units c - 1) 32 := by
  unfold blankOf
  split
  · rename_i m hm
    have hany : moved.any (·.offset == o) = true :=
      List.any_eq_true.mpr ⟨m, List.mem_of_find?_eq_some hm,
        List.find?_some (p := fun m : Moved => m.offset == o) hm⟩
    rw [hany, hclose m (List.mem_of_find?_eq_some hm), Text.codeUnitsOf_cons,
      codeUnitsOf_replicate_space]
    rfl
  · rename_i hnone
    have hany : moved.any (·.offset == o) = false := by
      simpa using hnone
    obtain ⟨n, hn⟩ := Nat.exists_eq_add_of_lt (Text.units_pos c)
    rw [hany, codeUnitsOf_replicate_space, hn, Nat.zero_add, Nat.add_sub_cancel,
      List.replicate_succ]
    rfl

/-- What stands in place of a character has as many code units as the character. -/
theorem length_codeUnitsOf_pieceAt (hclose : ∀ m ∈ moved, m.char = ')') (o : Nat) (c : Char) :
    (codeUnitsOf (pieceAt ranges moved o c)).length = units c := by
  unfold pieceAt
  split
  · have hpos := Text.units_pos c
    rw [codeUnitsOf_blankOf hclose, List.length_cons, List.length_replicate]
    omega
  · rw [Text.codeUnitsOf_cons, Text.codeUnitsOf_nil, List.append_nil, Text.length_codeUnits]

/-- What stands in place of all characters has as many code units as they have. -/
theorem length_codeUnitsOf_flatMap (ranges : List Span) (hclose : ∀ m ∈ moved, m.char = ')')
    (offset : Nat) (cs : List Char) :
    (codeUnitsOf ((withOffsets offset cs).flatMap fun (o, c) => pieceAt ranges moved o c)).length =
      unitsOf cs := by
  induction cs generalizing offset with
  | nil => rfl
  | cons c cs ih =>
    rw [withOffsets, List.flatMap_cons, Text.codeUnitsOf_append, List.length_append, ih,
      length_codeUnitsOf_pieceAt hclose, Text.unitsOf_cons]

/-- The code units at the place of a character are those of its piece. -/
theorem getElem?_blankRanges (ranges : List Span) (hclose : ∀ m ∈ moved, m.char = ')')
    (hsource : source = front ++ c :: back) (hj : j < units c) :
    (codeUnitsOf (blankRanges ranges moved source))[unitsOf front + j]? =
      (codeUnitsOf (pieceAt ranges moved (bytesOf front) c))[j]? := by
  have hfront := length_codeUnitsOf_flatMap ranges hclose 0 front
  rw [blankRanges_eq, hsource, Text.withOffsets_append, withOffsets, List.flatMap_append,
    List.flatMap_cons, Text.codeUnitsOf_append, Text.codeUnitsOf_append, ← hfront,
    List.getElem?_append_right (Nat.le_add_right _ _), Nat.add_sub_cancel_left,
    List.getElem?_append_left (by rwa [length_codeUnitsOf_pieceAt hclose]), Nat.zero_add]

/-- What the code units at the place of a character become. -/
theorem getElem?_blankRanges_cases (ranges : List Span) (hclose : ∀ m ∈ moved, m.char = ')')
    (hsource : source = front ++ c :: back) (hj : j < units c) :
    (codeUnitsOf (blankRanges ranges moved source))[unitsOf front + j]? =
        (codeUnitsOf source)[unitsOf front + j]? ∨
      isBreak c = false ∧
        ((codeUnitsOf (blankRanges ranges moved source))[unitsOf front + j]? = some 32 ∨
          (codeUnitsOf (blankRanges ranges moved source))[unitsOf front + j]? = some 41 ∧
            j = 0 ∧ moved.any (·.offset == bytesOf front) = true) := by
  rw [getElem?_blankRanges ranges hclose hsource hj, pieceAt]
  split
  · rename_i hblanked
    right
    rw [isBlanked, Bool.and_eq_true, Bool.not_eq_true'] at hblanked
    refine ⟨hblanked.2, ?_⟩
    rw [codeUnitsOf_blankOf hclose]
    cases j with
    | zero =>
      cases hany : moved.any (·.offset == bytesOf front)
      · exact Or.inl rfl
      · exact Or.inr ⟨rfl, rfl, rfl⟩
    | succ j =>
      left
      rw [List.getElem?_cons_succ, List.getElem?_replicate, if_pos (by omega)]
  · left
    rw [hsource, Text.getElem?_codeUnitsOf front back hj, Text.codeUnitsOf_cons,
      Text.codeUnitsOf_nil, List.append_nil]

/-- How many code units stand before a byte offset of a text. -/
def unitsBefore (source : List Char) (offset : Nat) : Nat := unitsOf (Text.before offset source)

/-- A blanked text has as many code units as the source. -/
theorem length_blankRanges (hclose : ∀ m ∈ moved, m.char = ')') :
    (codeUnitsOf (blankRanges ranges moved source)).length = (codeUnitsOf source).length := by
  rw [blankRanges_eq, length_codeUnitsOf_flatMap ranges hclose, Text.length_codeUnitsOf]

/-- Blanking neither takes nor leaves a line break. -/
theorem getElem?_blankRanges_break (hclose : ∀ m ∈ moved, m.char = ')') (i : Nat) {u : Nat}
    (hu : u ∈ [10, 13]) :
    (codeUnitsOf (blankRanges ranges moved source))[i]? = some u ↔
      (codeUnitsOf source)[i]? = some u := by
  by_cases hi : i < unitsOf source
  · obtain ⟨front, c, back, j, hsource, rfl, hj⟩ := Text.exists_char_of_lt hi
    rcases getElem?_blankRanges_cases ranges hclose hsource hj with
      heq | ⟨hbreak, hpiece⟩
    · rw [heq]
    · have hvalue : u = 10 ∨ u = 13 := by simpa using hu
      refine iff_of_false (fun h => ?_) fun h => ?_
      · rcases hpiece with hspace | ⟨hmark, -⟩
        · have := Option.some.inj (hspace.symm.trans h)
          omega
        · have := Option.some.inj (hmark.symm.trans h)
          omega
      · rw [hsource, Text.getElem?_codeUnitsOf front back hj] at h
        rw [Text.isBreak_of_codeUnit (List.mem_of_getElem? h) hu] at hbreak
        cases hbreak
  · rw [List.getElem?_eq_none (by rw [length_blankRanges hclose, Text.length_codeUnitsOf]; omega),
      List.getElem?_eq_none (by rw [Text.length_codeUnitsOf]; omega)]

/-- Blanking leaves what stood there, spaces, and parentheses that moved. -/
theorem unit_of_blankRanges (hclose : ∀ m ∈ moved, m.char = ')') {i u : Nat}
    (hu : (codeUnitsOf (blankRanges ranges moved source))[i]? = some u) :
    (codeUnitsOf source)[i]? = some u ∨ u = 32 ∨
      u = 41 ∧ ∃ m ∈ moved, i = unitsBefore source m.offset := by
  have hi : i < unitsOf source := by
    obtain ⟨hlt, -⟩ := List.getElem?_eq_some_iff.mp hu
    rwa [length_blankRanges hclose, Text.length_codeUnitsOf] at hlt
  obtain ⟨front, c, back, j, hsource, rfl, hj⟩ := Text.exists_char_of_lt hi
  rcases getElem?_blankRanges_cases ranges hclose hsource hj with
    heq | ⟨-, hspace | ⟨hmark, rfl, hmoved⟩⟩
  · exact Or.inl (heq ▸ hu)
  · rw [hspace] at hu
    exact Or.inr (Or.inl (Option.some.inj hu).symm)
  · rw [hmark] at hu
    obtain ⟨m, hm, hoffset⟩ := List.any_eq_true.mp hmoved
    refine Or.inr (Or.inr ⟨(Option.some.inj hu).symm, m, hm, ?_⟩)
    rw [beq_iff_eq.mp hoffset, unitsBefore, hsource, Text.before_bytesOf, Nat.add_zero]

/-- A text that was made of a program, unit by unit. At some places there are parentheses that
moved there, and each of them has left a space behind. -/
structure KeepsPositions (tree : Tree) (source code : List Char) (moves : List Move) : Prop where
  length : (codeUnitsOf code).length = (codeUnitsOf source).length
  breaks : ∀ i : Nat, ∀ u ∈ [10, 13],
    ((codeUnitsOf code)[i]? = some u ↔ (codeUnitsOf source)[i]? = some u)
  units : ∀ i u : Nat, (codeUnitsOf code)[i]? = some u →
    (codeUnitsOf source)[i]? = some u ∨ u = 32 ∨
      u = 41 ∧ ∃ m ∈ moves, i = unitsBefore source m.target
  genuine : ∀ m ∈ moves, m.arrow ∈ tree.preorder ∧ m.Fits source
  written : ∀ m ∈ moves, (codeUnitsOf code)[unitsBefore source m.target]? = some 41
  blanked : ∀ m ∈ moves, (codeUnitsOf source)[unitsBefore source m.origin]? = some 41 ∧
    (codeUnitsOf code)[unitsBefore source m.origin]? = some 32
  count : ((moves.map Move.target).map (unitsBefore source)).toFinset.card =
    ((moves.map Move.origin).map (unitsBefore source)).toFinset.card

/-- Two characters with the same number of code units before them stand at one offset. -/
theorem eq_of_unitsBefore_eq {o o' : Nat} {c c' : Char} (h : (o, c) ∈ withOffsets 0 source)
    (h' : (o', c') ∈ withOffsets 0 source) (heq : unitsBefore source o = unitsBefore source o') :
    o = o' := by
  obtain ⟨front, back, rfl, rfl⟩ := Text.mem_withOffsets.mp h
  obtain ⟨front', back', hsource, rfl⟩ := Text.mem_withOffsets.mp h'
  rw [unitsBefore, unitsBefore, Nat.zero_add, Nat.zero_add, Text.before_bytesOf, hsource,
    Text.before_bytesOf] at heq
  rw [Text.front_eq_of_unitsOf_eq hsource heq]

/-- The offsets of moves are their origins and their targets. -/
theorem perm_offsets (moves : List Move) :
    (moves.flatMap Move.offsets).Perm (moves.map Move.origin ++ moves.map Move.target) := by
  have hperm := List.flatMap_append_perm moves (fun m => [m.origin]) (fun m => [m.target])
  rw [← List.map_eq_flatMap, ← List.map_eq_flatMap] at hperm
  exact hperm.symm

/-- No two of some characters have the same number of code units before them. -/
theorem card_unitsBefore {offsets : List Nat} (hnodup : offsets.Nodup)
    (hplaces : ∀ o ∈ offsets, ∃ c, (o, c) ∈ withOffsets 0 source) :
    (offsets.map (unitsBefore source)).toFinset.card = offsets.length := by
  rw [List.toFinset_card_of_nodup, List.length_map]
  refine hnodup.map_on fun o ho o' ho' heq => ?_
  obtain ⟨c, hc⟩ := hplaces o ho
  obtain ⟨c', hc'⟩ := hplaces o' ho'
  exact eq_of_unitsBefore_eq hc hc' heq

/-- Blanking what a survey of a program found keeps every position. -/
theorem keepsPositions_blankRanges {tree : Tree} {f : Findings} (h : Moves source [tree] f moves)
    (hranges : f.blanks ⊆ ranges) :
    KeepsPositions tree source (blankRanges ranges f.moved source) moves := by
  have hclose := h.close
  have hany (o : Nat) : f.moved.any (·.offset == o) = true ↔ o ∈ moves.map Move.target := by
    rw [h.moved]
    simp
  have hnodup := (perm_offsets moves).nodup_iff.mp h.nodup
  obtain ⟨horigins, htargets, hdisjoint⟩ := List.nodup_append.mp hnodup
  have hblanked {m : Move} (hm : m ∈ moves) {o : Nat} (ho : o ∈ m.offsets) {c : Char}
      (hc : (o, c) ∈ withOffsets 0 source) (hbreak : isBreak c = false) :
      (codeUnitsOf (blankRanges ranges f.moved source))[unitsBefore source o]? =
        some (if f.moved.any (·.offset == o) then 41 else 32) := by
    obtain ⟨front, back, hsource, rfl⟩ := Text.mem_withOffsets.mp hc
    obtain ⟨r, hr, hholds⟩ := h.blanked m hm _ ho
    have hpiece := getElem?_blankRanges ranges hclose hsource (Text.units_pos c)
    have hpos : isBlanked ranges (bytesOf front) c = true := by
      rw [isBlanked, hbreak, Bool.not_false, Bool.and_true, List.any_eq_true]
      exact ⟨r, hranges hr, by simpa using hholds⟩
    rw [pieceAt, if_pos hpos, codeUnitsOf_blankOf hclose, Nat.add_zero] at hpiece
    rw [unitsBefore, Nat.zero_add, hsource, Text.before_bytesOf, ← hsource, hpiece]
    rfl
  refine ⟨length_blankRanges hclose, fun i u hu => getElem?_blankRanges_break hclose i hu,
    fun i u hu => ?_, fun m hm => ?_, fun m hm => ?_, fun m hm => ?_, ?_⟩
  · refine (unit_of_blankRanges hclose hu).imp_right (Or.imp_right (And.imp_right ?_))
    rintro ⟨m, hm, hi⟩
    rw [h.moved] at hm
    obtain ⟨move, hmove, rfl⟩ := List.mem_map.mp hm
    exact ⟨move, hmove, hi⟩
  · rw [← Tree.preorderAll_singleton]
    exact ⟨h.inside m hm, h.fits m hm⟩
  · obtain ⟨-, -, -, last, hlast, hbreak, -⟩ := (h.fits m hm).target
    rw [hblanked hm (by simp [Move.offsets]) hlast hbreak,
      if_pos ((hany _).mpr (List.mem_map_of_mem hm))]
  · have hclose' := (h.fits m hm).close
    constructor
    · obtain ⟨front, back, hsource, horigin⟩ := Text.mem_withOffsets.mp hclose'
      rw [horigin, Nat.zero_add, unitsBefore, hsource, Text.before_bytesOf]
      exact Text.getElem?_codeUnitsOf front back (j := 0) (by decide)
    · rw [hblanked hm (by simp [Move.offsets]) hclose' (by decide), if_neg]
      exact fun htarget => hdisjoint _ (List.mem_map_of_mem hm) _ ((hany _).mp htarget) rfl
  · rw [card_unitsBefore htargets, card_unitsBefore horigins, List.length_map, List.length_map]
    · simpa using fun m hm => ⟨_, (h.fits m hm).close⟩
    · intro o ho
      obtain ⟨m, hm, rfl⟩ := List.mem_map.mp ho
      obtain ⟨-, -, -, last, hlast, -⟩ := (h.fits m hm).target
      exact ⟨last, hlast⟩

end Strip

/-- Stripping the types of a program keeps every position of it. -/
theorem stripTypes_keepsPositions {source : String} {path : Path} {options : TransformOptions}
    {out : Transformed} (h : stripTypes source path options = .ok out) :
    ∃ tree moves, Grammar.parse? (.ofPath path) source = some tree ∧
      Strip.KeepsPositions tree source.toList out.code.toList moves := by
  obtain ⟨tree, f, hparse, hsurvey, hcode⟩ := exists_survey_of_stripTypes h
  obtain ⟨moves, hmoves⟩ :=
    Strip.exists_moves_of_survey (Grammar.stands_of_parse? hparse) hsurvey
  refine ⟨tree, moves, hparse, ?_⟩
  rw [hcode]
  exact Strip.keepsPositions_blankRanges hmoves (List.subset_append_left _ _)

/-- A parenthesis moves when a result follows on another line. -/
theorem stripTypes_keepsPositions_arrow :
    stripTypes "(a: A):\nB => a" ⟨"a.ts"⟩ {} =
        .ok ⟨"(a     \n) => a", .identity "a.ts" "(a: A):\nB => a"⟩ ∧
      ∃ tree moves, Grammar.parse? .typed "(a: A):\nB => a" = some tree ∧ moves ≠ [] ∧
        Strip.KeepsPositions tree "(a: A):\nB => a".toList "(a     \n) => a".toList moves := by
  have h : stripTypes "(a: A):\nB => a" ⟨"a.ts"⟩ {} =
      .ok ⟨"(a     \n) => a", .identity "a.ts" "(a: A):\nB => a"⟩ := by
    rw [stripTypes_eq]
    decide +kernel
  obtain ⟨tree, moves, hparse, hkeeps⟩ := stripTypes_keepsPositions h
  refine ⟨h, tree, moves, hparse, ?_, hkeeps⟩
  rintro rfl
  -- the result was no parenthesis
  rcases hkeeps.units 8 41 (by decide +kernel) with hsame | hspace | ⟨-, m, hm, -⟩
  · exact absurd hsame (by decide +kernel)
  · cases hspace
  · cases hm

end ScriptModules

import ScriptModules.Grammar.Recovery
import ScriptModules.Proofs.Grammar.Endings

/-!
# Trees of repaired texts

Whatever is left out of a text and added to it, the trees that are read stop between two characters
of the text. A repair moves every tree from a place of the draft to where the glyph before that
place stops, and a glyph stops where a character of the source does, or where the glyph did that it
was added behind.
-/

namespace ScriptModules.Grammar

open Text (IsOffset bytesOf)

variable {src : List Char} {d : Dialect} {w : Workpiece} {glyphs : List Glyph} {t u : Tree}
  {ts : Forest} {start stop : Nat} {f : Span → Span}

/-- Glyphs that stop between two characters of a source. -/
def Placed (src : List Char) (glyphs : List Glyph) : Prop := ∀ g ∈ glyphs, IsOffset src g.stop

/-- Glyphs that are placed are so one after the other. -/
theorem Placed.append {more : List Glyph} (h : Placed src glyphs) (h' : Placed src more) :
    Placed src (glyphs ++ more) :=
  List.forall_mem_append.mpr ⟨h, h'⟩

/-- A joint is placed where its offset is. -/
theorem placed_joint (h : IsOffset src stop) : Placed src [joint stop] :=
  List.forall_mem_singleton.mpr h

/-- What is added is placed where it is added. -/
theorem placed_added (h : IsOffset src stop) (text : String) : Placed src (added stop text) := by
  refine Placed.append (fun g hg => ?_) (placed_joint h)
  obtain ⟨c, -, rfl⟩ := List.mem_map.mp hg
  exact h

/-- The characters of a source stop there. -/
theorem placed_glyphsOf (src : List Char) : Placed src (glyphsOf src) := by
  intro g hg
  obtain ⟨⟨offset, c⟩, hmem, rfl⟩ := List.mem_map.mp hg
  obtain ⟨front, back, rfl, rfl⟩ := Text.mem_withOffsets.mp hmem
  exact ⟨front ++ [c], back, by simp, by simp⟩

/-- A draft is split into its parts. -/
theorem splitGlyphs_append (offset : Nat) (glyphs : List Glyph) :
    (splitGlyphs offset glyphs).1 ++ (splitGlyphs offset glyphs).2 = glyphs := by
  induction glyphs generalizing offset with
  | nil => rfl
  | cons g rest ih =>
    rw [splitGlyphs]
    split
    · rfl
    · exact congrArg (g :: ·) (ih _)

/-- Both sides of a split are placed. -/
theorem Placed.split (h : Placed src glyphs) (offset : Nat) :
    Placed src (splitGlyphs offset glyphs).1 ∧ Placed src (splitGlyphs offset glyphs).2 := by
  rw [← splitGlyphs_append offset glyphs] at h
  exact List.forall_mem_append.mp h

/-- Where the last of some glyphs stops, or else what stands before them. -/
theorem Placed.isOffset_last (h : Placed src glyphs) (hstart : IsOffset src start) :
    IsOffset src ((glyphs.getLast?.map Glyph.stop).getD start) := by
  cases hlast : glyphs.getLast? with
  | none => exact hstart
  | some g => exact h g (List.mem_of_getLast? hlast)

/-- Something that stops in a draft stops between two characters of the source. -/
theorem isOffset_stop_ofGlyphs (h : Placed src glyphs) (hstart : IsOffset src start) (s : Span) :
    IsOffset src ((SourceOffsets.ofGlyphs start glyphs).span s).stop := by
  let all := glyphs.foldl (fun (s : SourceOffsets × Nat) g =>
    let n := g.char.utf8Size
    (⟨s.1.starts ++ Array.replicate n g.start,
      s.1.stops.push s.2 ++ Array.replicate (n - 1) g.stop⟩, g.stop)) ({}, start)
  have hall : (∀ o ∈ all.1.stops, IsOffset src o) ∧ IsOffset src all.2 := by
    refine List.foldlRecOn (motive := fun s : SourceOffsets × Nat =>
      (∀ o ∈ s.1.stops, IsOffset src o) ∧ IsOffset src s.2) _ _ ⟨by simp, hstart⟩ ?_
    intro s hs g hg
    refine ⟨fun o ho => ?_, h g hg⟩
    simp only [Array.mem_append, Array.mem_push, Array.mem_replicate] at ho
    rcases ho with (ho | rfl) | ⟨-, rfl⟩
    · exact hs.1 o ho
    · exact hs.2
    · exact h g hg
  change IsOffset src ((all.1.stops.push all.2).getD s.stop 0)
  rw [Array.getD_eq_getD_getElem?]
  cases hget : (all.1.stops.push all.2)[s.stop]? with
  | none => exact Text.isOffset_zero src
  | some o =>
    rcases Array.mem_push.mp (Array.mem_of_getElem? hget) with ho | rfl
    · exact hall.1 o ho
    · exact hall.2

/-- Trees that stop between two characters of a source, and all that is below them. -/
def Settled (src : List Char) (ts : Forest) : Prop :=
  ∀ u ∈ Tree.preorderAll ts, IsOffset src u.span.stop

theorem settled_nil (src : List Char) : Settled src [] := fun _ hu => absurd hu List.not_mem_nil

/-- Trees are settled one row after the other if they are so by themselves. -/
theorem settled_append {us : Forest} :
    Settled src (ts ++ us) ↔ Settled src ts ∧ Settled src us := by
  rw [Settled, Tree.preorderAll_append, List.forall_mem_append]
  rfl

mutual

/-- All ranges of a tree that is moved are moved. -/
theorem exists_span_of_mem_moved (f : Span → Span) (t : Tree) (hu : u ∈ (t.moved f).preorder) :
    ∃ s, u.span = f s := by
  cases t with
  | leaf kind span text =>
    obtain rfl := List.mem_singleton.mp hu
    exact ⟨span, rfl⟩
  | node kind span children =>
    rcases List.mem_cons.mp hu with rfl | hu
    · exact ⟨span, rfl⟩
    · exact exists_span_of_mem_movedAll f children hu

/-- All ranges of trees that are moved are moved. -/
theorem exists_span_of_mem_movedAll (f : Span → Span) (ts : List Tree)
    (hu : u ∈ Tree.preorderAll (Tree.movedAll f ts)) : ∃ s, u.span = f s := by
  cases ts with
  | nil => cases hu
  | cons t ts =>
    rcases List.mem_append.mp hu with hu | hu
    · exact exists_span_of_mem_moved f t hu
    · exact exists_span_of_mem_movedAll f ts hu

end

/-- Trees that are moved to the source are settled there. -/
theorem settled_movedAll (h : Placed src glyphs) (hstart : IsOffset src start) (ts : Forest) :
    Settled src (Tree.movedAll (SourceOffsets.ofGlyphs start glyphs).span ts) := by
  intro u hu
  obtain ⟨s, hs⟩ := exists_span_of_mem_movedAll _ _ hu
  rw [hs]
  exact isOffset_stop_ofGlyphs h hstart s

/-- A workpiece of a source, with everything in it between characters of the source. -/
structure Workpiece.Fits (src : List Char) (w : Workpiece) : Prop where
  done : Settled src w.done
  start : IsOffset src w.start
  rest : Placed src w.rest
  repairs : ∀ r ∈ w.repairs, ∀ t ∈ r.tree?, Settled src [t]

namespace Workpiece.Fits

variable (h : w.Fits src)

include h

/-- Taking the statements that can be read leaves everything between characters of the source. -/
theorem settle (p : Progress) : (w.settle p).Fits src where
  done := settled_append.mpr ⟨h.done, settled_movedAll h.rest h.start _⟩
  start := isOffset_stop_ofGlyphs h.rest h.start _
  rest := (h.rest.split _).2
  repairs := h.repairs

/-- Leaving out a range leaves everything between characters of the source. -/
theorem omit_ (first stop : Nat) (parts : List Piece) :
    (Grammar.omit_ w first stop parts).Fits src := by
  obtain ⟨hbefore, hrest⟩ := h.rest.split first
  obtain ⟨hgone, hafter⟩ := hrest.split (stop - first)
  have hstop := hgone.isOffset_last h.start
  refine ⟨h.done, h.start, hbefore.append ((placed_joint hstop).append hafter), fun r hr t ht => ?_⟩
  rcases List.mem_cons.mp hr with rfl | hr
  · obtain rfl := Option.some.inj ht
    refine List.forall_mem_append.mpr ⟨List.forall_mem_cons.mpr ⟨hstop, ?_⟩, settled_nil src⟩
    exact settled_movedAll h.rest h.start _
  · exact h.repairs r (List.mem_filter.mp hr).1 t ht

/-- Adding a token leaves everything between characters of the source. -/
theorem addToken? {p : Progress} {longer : Workpiece} (hlonger : addToken? d w p = some longer) :
    longer.Fits src := by
  obtain ⟨hbefore, hafter⟩ := h.rest.split p.reach
  obtain ⟨⟨name, text⟩, -, hattempt⟩ := List.exists_of_findSome?_eq_some hlonger
  obtain ⟨-, hsome⟩ := Option.ite_none_right_eq_some.mp hattempt
  obtain rfl := Option.some.inj hsome
  have hadded := placed_added (hbefore.isOffset_last h.start) text
  refine ⟨h.done, h.start, (hbefore.append hadded).append hafter, fun r hr t ht => ?_⟩
  rcases List.mem_cons.mp hr with rfl | hr
  · cases ht
  · exact h.repairs r hr t ht

/-- Leaving out more and more leaves everything between characters of the source. -/
theorem omitUntil (parts : List Piece) (fuel : Nat) (skipped : List Piece) (c : Cursor) :
    (Grammar.omitUntil d w parts fuel skipped c).Fits src := by
  induction fuel generalizing skipped c with
  | zero => exact h
  | succ fuel ih =>
    rw [Grammar.omitUntil]
    dsimp only
    split
    · split
      · exact h.omit_ _ _ _
      · exact h.omit_ _ _ _
    · split
      · exact h.omit_ _ _ _
      · exact ih _ _

/-- However many repairs are made, everything stays between characters of the source. -/
theorem repair (fuel : Nat) : (Grammar.repair d fuel w).Fits src := by
  induction fuel generalizing w with
  | zero =>
    obtain ⟨hdone, hstart, -, hrepairs⟩ := h.omit_ 0 (bytesOf (textOf w.rest)) []
    exact ⟨hdone, hstart, fun _ hg => absurd hg List.not_mem_nil, hrepairs⟩
  | succ fuel ih =>
    have hsettled := h.settle (progressOf d w.rest)
    have hshorter : (omitPieces d (w.settle (progressOf d w.rest))
        (progressOf d (w.settle (progressOf d w.rest)).rest)).Fits src :=
      hsettled.omitUntil _ _ _ _
    rw [Grammar.repair]
    dsimp only
    split
    · exact hsettled
    · split
      · exact ih hshorter
      · rename_i hadded
        refine ih ?_
        split
        · exact hsettled.addToken? hadded
        · exact hshorter

end Workpiece.Fits

/-- A repaired source has everything between characters of the source. -/
theorem fits_repaired (d : Dialect) (src : List Char) : (repaired d src).Fits src := by
  refine Workpiece.Fits.repair
    ⟨settled_nil src, ?_, fun g hg => ?_, fun _ hr => absurd hr List.not_mem_nil⟩ _
  · exact ⟨_, _, (List.take_append_drop _ src).symm, rfl⟩
  · exact placed_glyphsOf src g (List.mem_of_mem_drop hg)

/-- The trees of a text, program or not, stop between two characters of it. -/
theorem isOffset_stop_parseAnyway {source : String} (ht : t ∈ (parseAnyway d source).preorder)
    (hkind : t.kind ≠ .program) : IsOffset source.toList t.span.stop := by
  unfold parseAnyway at ht
  split at ht
  · rename_i tree hparse
    exact ((stands_of_parse? hparse).of_mem_preorder ht).isOffset_stop
  · obtain ⟨hdone, -, -, hrepairs⟩ := fits_repaired d source.toList
    rcases Tree.mem_preorder_iff.mp ht with rfl | ⟨u, hu, ht⟩
    · exact absurd rfl hkind
    · rcases List.mem_append.mp (List.mem_mergeSort.mp hu) with hu | hu
      · exact hdone t (Tree.mem_preorderAll_iff.mpr ⟨u, hu, ht⟩)
      · obtain ⟨r, hr, hu⟩ := List.mem_filterMap.mp hu
        exact hrepairs r hr u hu t (List.mem_append_left _ ht)

end ScriptModules.Grammar

import ScriptModules.Proofs.Text.Offsets
import ScriptModules.Proofs.Text.Split

/-!
# Patterns with a star

A pattern with a star matches a text that starts with what stands before the star and ends with
what stands behind it. A scan of a list that keeps the better of two all along ends with one that
those before yield to, and that yields to none of those after.
-/

namespace ScriptModules.Text

section Best

variable {α β : Type} {f : α → Option β} {yields : β → β → Bool} {l before after : List α} {a : α}
  {b : β}

/-- Take what comes of an element when the best so far yields to it. -/
def keepBetter (f : α → Option β) (yields : β → β → Bool) (best? : Option β) (a : α) : Option β :=
  match f a with
  | none => best?
  | some b => if best?.all (yields · b) then some b else best?

/-- What comes of one element of a list is the best when all that comes of those before yields to
it, and it yields to nothing that comes of those after. -/
structure IsBest (f : α → Option β) (yields : β → β → Bool) (before : List α) (a : α)
    (after : List α) (b : β) : Prop where
  here : f a = some b
  earlier : ∀ x ∈ before, ∀ c, f x = some c → yields c b = true
  later : ∀ x ∈ after, ∀ c, f x = some c → yields b c = false

/-- Yielding goes by a rank: what yields to something yields to all that ranks no lower. -/
def Ranks (yields : β → β → Bool) : Prop :=
  ∀ b c d, yields b c = true → yields c d = true ∨ yields d c = false → yields b d = true

/-- To yield to what ranks as high goes by the rank. -/
theorem ranks_le (rank : β → Nat) : Ranks fun b c => decide (rank b ≤ rank c) := by
  intro b c d hbc hcd
  simp only [decide_eq_true_eq, decide_eq_false_iff_not] at *
  omega

/-- To yield only to what ranks higher goes by the rank. -/
theorem ranks_lt (rank : β → Nat) : Ranks fun b c => decide (rank b < rank c) := by
  intro b c d hbc hcd
  simp only [decide_eq_true_eq, decide_eq_false_iff_not] at *
  omega

/-- The best so far stays if it yields to nothing that comes later. -/
theorem foldl_keepBetter_of_later (h : ∀ x ∈ l, ∀ c, f x = some c → yields b c = false) :
    l.foldl (keepBetter f yields) (some b) = some b := by
  induction l with
  | nil => rfl
  | cons x rest ih =>
    obtain ⟨hx, hrest⟩ := List.forall_mem_cons.mp h
    have hkeep : keepBetter f yields (some b) x = some b := by
      unfold keepBetter
      cases hfx : f x with
      | none => rfl
      | some c => simp [hx c hfx]
    rw [List.foldl_cons, hkeep, ih hrest]

/-- The best so far comes of the element, or was the best before. -/
theorem exists_of_keepBetter {best? : Option β} (h : keepBetter f yields best? a = some b) :
    f a = some b ∨ best? = some b := by
  unfold keepBetter at h
  split at h
  · exact Or.inr h
  · rename_i c hc
    split at h
    · obtain rfl := Option.some.inj h
      exact Or.inl hc
    · exact Or.inr h

/-- What is kept comes of an element, if it was not there before. -/
theorem exists_of_foldl_keepBetter {best? : Option β}
    (h : l.foldl (keepBetter f yields) best? = some b) :
    (∃ x ∈ l, f x = some b) ∨ best? = some b := by
  induction l generalizing best? with
  | nil => exact Or.inr h
  | cons x rest ih =>
    rcases ih h with ⟨y, hy, hfy⟩ | hbest
    · exact Or.inl ⟨y, List.mem_cons_of_mem _ hy, hfy⟩
    · exact (exists_of_keepBetter hbest).imp_left fun hfx => ⟨x, List.mem_cons_self, hfx⟩

/-- A scan ends with the best. -/
theorem IsBest.foldl_eq (h : IsBest f yields before a after b) :
    (before ++ a :: after).foldl (keepBetter f yields) none = some b := by
  have hkeep : keepBetter f yields (before.foldl (keepBetter f yields) none) a = some b := by
    rw [keepBetter, h.here]
    cases hbest : before.foldl (keepBetter f yields) none with
    | none => rfl
    | some c =>
      obtain ⟨x, hx, hfx⟩ | hnone := exists_of_foldl_keepBetter hbest
      · simp [h.earlier x hx c hfx]
      · cases hnone
  rw [List.foldl_append, List.foldl_cons, hkeep, foldl_keepBetter_of_later h.later]

/-- Where something comes of an element, something is the best. -/
theorem exists_isBest (hranks : Ranks yields) (ha : a ∈ l) (hb : f a = some b) :
    ∃ before best after c, l = before ++ best :: after ∧
      IsBest f yields before best after c := by
  induction l generalizing a b with
  | nil => cases ha
  | cons x rest ih =>
    by_cases hrest : ∃ y ∈ rest, ∃ c, f y = some c
    · obtain ⟨y, hy, c, hc⟩ := hrest
      obtain ⟨before, best, after, d, rfl, hbest⟩ := ih hy hc
      cases hx : f x with
      | none =>
        refine ⟨x :: before, best, after, d, rfl, hbest.here, ?_, hbest.later⟩
        exact List.forall_mem_cons.mpr ⟨fun e he => by simp [hx] at he, hbest.earlier⟩
      | some e =>
        cases hyields : yields e d with
        | true =>
          refine ⟨x :: before, best, after, d, rfl, hbest.here, ?_, hbest.later⟩
          refine List.forall_mem_cons.mpr ⟨fun e' he' => ?_, hbest.earlier⟩
          rwa [← Option.some.inj (hx.symm.trans he')]
        | false =>
          -- what yields to nothing but the best of the rest yields to none of the rest
          refine ⟨[], x, before ++ best :: after, e, rfl, hx, by simp, fun y hy c hc => ?_⟩
          refine Bool.eq_false_iff.mpr fun hec => Bool.eq_false_iff.mp hyields ?_
          rcases List.mem_append.mp hy with hy | hy
          · exact hranks e c d hec (Or.inl (hbest.earlier y hy c hc))
          · rcases List.mem_cons.mp hy with rfl | hy
            · rwa [Option.some.inj (hbest.here.symm.trans hc)]
            · exact hranks e c d hec (Or.inr (hbest.later y hy c hc))
    · have hnone : ∀ y ∈ rest, ∀ c, f y ≠ some c := fun y hy c hc => hrest ⟨y, hy, c, hc⟩
      rcases List.mem_cons.mp ha with rfl | ha
      · exact ⟨[], a, rest, b, rfl, hb, by simp, fun y hy c hc => absurd hc (hnone y hy c)⟩
      · exact absurd hb (hnone a ha b)

/-- There is no best just when nothing comes of any element. -/
theorem foldl_keepBetter_eq_none_iff (hranks : Ranks yields) :
    l.foldl (keepBetter f yields) none = none ↔ ∀ x ∈ l, f x = none := by
  constructor
  · intro h x hx
    refine Option.eq_none_iff_forall_ne_some.mpr fun c hc => ?_
    obtain ⟨before, best, after, d, rfl, hbest⟩ := exists_isBest hranks hx hc
    rw [hbest.foldl_eq] at h
    cases h
  · intro h
    refine Option.eq_none_iff_forall_ne_some.mpr fun c hc => ?_
    obtain ⟨x, hx, hfx⟩ | hnone := exists_of_foldl_keepBetter hc
    · rw [h x hx] at hfx
      cases hfx
    · cases hnone

/-- A scan gives the best and nothing else. -/
theorem foldl_keepBetter_eq_some_iff (hranks : Ranks yields) :
    l.foldl (keepBetter f yields) none = some b ↔
      ∃ before a after, l = before ++ a :: after ∧ IsBest f yields before a after b := by
  constructor
  · intro h
    obtain ⟨x, hx, hfx⟩ | hnone := exists_of_foldl_keepBetter h
    · obtain ⟨before, best, after, c, rfl, hbest⟩ := exists_isBest hranks hx hfx
      obtain rfl := Option.some.inj (hbest.foldl_eq.symm.trans h)
      exact ⟨before, best, after, rfl, hbest⟩
    · cases hnone
  · rintro ⟨before, a, after, rfl, hbest⟩
    exact hbest.foldl_eq

end Best

variable {pattern name : String} {front captured back front' captured' back' cs : List Char}

/-- The bytes of a text are those of its characters. -/
theorem utf8ByteSize_ofList (cs : List Char) : (String.ofList cs).utf8ByteSize = bytesOf cs := by
  induction cs with
  | nil => rfl
  | cons c cs ih =>
    rw [String.ofList_cons, String.utf8ByteSize_append, String.utf8ByteSize_singleton, ih,
      bytesOf_cons]

/-- Fronts of one text are as long in bytes as they are in characters. -/
theorem bytesOf_le_iff (h : front <+: cs) (h' : front' <+: cs) :
    bytesOf front ≤ bytesOf front' ↔ front.length ≤ front'.length := by
  rcases List.prefix_or_prefix_of_prefix h h' with ⟨rest, rfl⟩ | ⟨rest, rfl⟩
  · simp
  · cases rest with
    | nil => simp
    | cons c rest =>
      have hsize := c.utf8Size_pos
      simp only [bytesOf_append, bytesOf_cons, List.length_append, List.length_cons]
      omega

/-- What is between a front and a back that do not overlap. -/
theorem eq_append_iff :
    cs = front ++ captured ++ back ↔
      front.isPrefixOf cs = true ∧ back.isSuffixOf (cs.drop front.length) = true ∧
        (cs.drop front.length).take ((cs.drop front.length).length - back.length) = captured := by
  rw [List.isPrefixOf_iff_prefix, List.isSuffixOf_iff_suffix]
  constructor
  · rintro rfl
    rw [List.append_assoc, List.drop_left]
    exact ⟨List.prefix_append _ _, List.suffix_append _ _, by simp⟩
  · rintro ⟨⟨rest, rfl⟩, hback, rfl⟩
    rw [List.drop_left] at hback ⊢
    obtain ⟨between, rfl⟩ := hback
    simp

/-- A pattern matches a name: the first star stands for what is between the front and the back. -/
structure Matches (pattern name : String) (front captured back : List Char) : Prop where
  pattern_eq : pattern.toList = front ++ '*' :: back
  plain : '*' ∉ front
  name_eq : name.toList = front ++ captured ++ back

/-- A name starts with the front of a pattern that matches it. -/
theorem Matches.front_prefix (h : Matches pattern name front captured back) :
    front <+: name.toList :=
  ⟨captured ++ back, by rw [h.name_eq, List.append_assoc]⟩

/-- A pattern matches a name in one way. -/
theorem Matches.unique (h : Matches pattern name front captured back)
    (h' : Matches pattern name front' captured' back') :
    front = front' ∧ captured = captured' ∧ back = back' := by
  have hpieces := congrArg (splitAt '*') (h.pattern_eq.symm.trans h'.pattern_eq)
  rw [splitAt_append_cons h.plain, splitAt_append_cons h'.plain] at hpieces
  obtain ⟨rfl, -⟩ := List.cons.inj hpieces
  have hback := List.append_cancel_left (h.pattern_eq.symm.trans h'.pattern_eq)
  obtain rfl : back = back' := (List.cons.inj hback).2
  have hname := List.append_cancel_right (h.name_eq.symm.trans h'.name_eq)
  exact ⟨rfl, List.append_cancel_left hname, rfl⟩

end ScriptModules.Text

import ScriptModules.Proofs.Files.Normalized

/-!
# Joining to normal forms

In a normal form the steps up come before the names, so folding it again changes nothing. A text
that is joined to a path is folded into the parts of the path one after the other, and it makes no
difference whether these were folded before. This holds of absolute and of relative paths, and also
where folding leaves nothing of a path.
-/

namespace ScriptModules.Path

variable {p : Path} {before : List Part} {rest : String}

/-- Parts that are folded, last first: no step up follows a name, and nothing comes before a
root. -/
inductive Folded : List Part → Prop
  | nil : Folded []
  | root : Folded [.root]
  | up {before : List Part} (h : Folded before) (hlast : ∀ name, .name name ∉ before.head?) :
    Folded (.up :: before)
  | name {before : List Part} {name : String} (h : Folded before) (hname : IsName name) :
    Folded (.name name :: before)

namespace Folded

/-- Folding in one more step keeps the parts folded. -/
theorem fold (h : Folded before) {part : Part} (hpart : IsStep part) :
    Folded (fold before part) := by
  cases hpart with
  | name hname => exact .name h hname
  | up =>
    cases h with
    | nil => exact .up .nil (by simp)
    | root => exact .up .root (by simp)
    | up h hlast => exact .up (.up h hlast) (by simp)
    | name h _ => exact h

/-- Folding steps into folded parts leaves them folded. -/
theorem foldl (h : Folded before) {steps : List Part} (hsteps : ∀ part ∈ steps, IsStep part) :
    Folded (steps.foldl Path.fold before) := by
  induction steps generalizing before with
  | nil => exact h
  | cons part steps ih =>
    exact ih (h.fold (hsteps part List.mem_cons_self)) fun part hpart =>
      hsteps part (List.mem_cons_of_mem _ hpart)

/-- Folding what is folded changes nothing. -/
theorem foldl_reverse (h : Folded before) : before.reverse.foldl Path.fold [] = before := by
  induction h with
  | nil => rfl
  | root => rfl
  | @up before _ hlast ih =>
    rw [List.reverse_cons, List.foldl_append, ih]
    cases before with
    | nil => rfl
    | cons last front =>
      cases last with
      | name name => exact absurd rfl (hlast name)
      | _ => rfl
  | name _ _ ih =>
    rw [List.reverse_cons, List.foldl_append, ih]
    rfl

end Folded

/-- A step up below a path is one part more. -/
theorem parts_join_up (p : Path) : (p.join "..").parts = p.parts ++ [.up] := by
  by_cases htext : p.text = ""
  · rw [show p = ⟨""⟩ from congrArg Path.mk htext]
    decide
  · exact parts_join_of_relative htext (by decide)

/-- Folded parts are spelled so that the path has these parts. -/
theorem Folded.parts_ofParts (h : Folded before) :
    (ofParts before.reverse).parts = before.reverse := by
  induction h with
  | nil => decide
  | root => decide
  | @up before _ _ ih =>
    have hlast : ofParts (before.reverse ++ [.up]) = (ofParts before.reverse).join ".." := by
      rw [ofParts, List.foldl_append]
      rfl
    rw [List.reverse_cons, hlast, parts_join_up, ih]
  | name _ hname ih => rw [List.reverse_cons, ofParts_concat, parts_join hname, ih]

/-- The parts of a path are folded one after the other. -/
theorem folded_parts (p : Path) : Folded (p.parts.foldl fold []) := by
  rcases exists_first_steps p with hnil | ⟨first, steps, hparts, hfirst, hsteps⟩
  · rw [hnil]
    exact .nil
  · rw [hparts, List.foldl_cons]
    refine Folded.foldl ?_ hsteps
    rcases hfirst with rfl | rfl | hstep
    · exact .root
    · exact .nil
    · exact Folded.nil.fold hstep

/-- The parts of a normal form are the folded parts in their order. -/
theorem parts_normalize_eq_reverse (p : Path) :
    p.normalize.parts = (p.parts.foldl fold []).reverse := by
  rw [normalize_eq, (folded_parts p).parts_ofParts]

/-- A relative text stands for the steps of its pieces, behind a dot if it starts with one. -/
theorem parts_of_relative (h : (⟨rest⟩ : Path).isAbsolute = false) :
    parts ⟨rest⟩ = (pieces ⟨rest⟩).filterMap partOf? ∨
      parts ⟨rest⟩ = .here :: (pieces ⟨rest⟩).filterMap partOf? := by
  by_cases htext : rest = ""
  · rw [htext]
    exact Or.inl (by decide)
  · obtain ⟨first, more, hpieces⟩ := List.exists_cons_of_ne_nil (pieces_ne_nil ⟨rest⟩)
    have hparts := parts_eq htext hpieces
    have hfirst : first ≠ "" := by
      rintro rfl
      rw [← Bool.not_eq_true, isAbsolute_iff, hparts] at h
      exact h rfl
    rw [hparts, hpieces, start, if_neg (by simpa using hfirst)]
    split
    · rename_i hdot
      rw [beq_iff_eq.mp hdot]
      exact Or.inr rfl
    · refine Or.inl ?_
      rw [List.filterMap_cons]
      cases partOf? first <;> rfl

/-- A relative text that is joined to a path takes up where the parts of the path lead, when a dot
at its start changes nothing. -/
theorem foldl_parts_join {α : Type} (step : α → Part → α) (hhere : ∀ a, step a .here = a) (a : α)
    (p : Path) (h : (⟨rest⟩ : Path).isAbsolute = false) :
    (p.join rest).parts.foldl step a = (parts ⟨rest⟩).foldl step (p.parts.foldl step a) := by
  by_cases htext : p.text = ""
  · have hhead : ¬ (rest.toList.head? == some '/') = true := by simpa [isAbsolute] using h
    have hjoin : p.join rest = ⟨rest⟩ := by
      rw [join, if_neg hhead, htext]
      rfl
    rw [hjoin, parts_of_text_eq_empty htext, List.foldl_nil]
  · rw [parts_join_of_relative htext h, List.foldl_append]
    rcases parts_of_relative h with hparts | hparts
    · rw [hparts]
    · rw [hparts, List.foldl_cons, hhere]

/-- Folding in one more part leads where the part leads. -/
theorem foldl_enter_fold (names : List String) (before : List Part) (part : Part) :
    (fold before part).reverse.foldl enter names =
      enter (before.reverse.foldl enter names) part := by
  have hlast (last : Part) : (last :: before).reverse.foldl enter names =
      enter (before.reverse.foldl enter names) last := by
    rw [List.reverse_cons, List.foldl_append]
    rfl
  cases part with
  | here => rfl
  | root => exact hlast .root
  | name name => exact hlast (.name name)
  | up =>
    cases before with
    | nil => exact hlast .up
    | cons last front =>
      cases last with
      | name name =>
        rw [List.reverse_cons, List.foldl_append]
        rfl
      | _ => exact hlast .up

/-- The normal form leads from everywhere to where the path leads. -/
theorem foldl_enter_parts_normalize (p : Path) (names : List String) :
    p.normalize.parts.foldl enter names = p.parts.foldl enter names := by
  have hfolded (parts before : List Part) : (parts.foldl fold before).reverse.foldl enter names =
      parts.foldl enter (before.reverse.foldl enter names) := by
    induction parts generalizing before with
    | nil => rfl
    | cons part parts ih => rw [List.foldl_cons, ih, foldl_enter_fold, List.foldl_cons]
  rw [parts_normalize_eq_reverse]
  exact hfolded p.parts []

/-- What is joined to a path leads on from where the path leads. -/
theorem location_join (p q : Path) :
    (p.join q.text).location = (q.parts.foldl enter (p.parts.foldl enter [])).reverse := by
  rw [location]
  cases hq : q.isAbsolute with
  | true =>
    obtain ⟨steps, hparts, -⟩ := exists_parts_of_isAbsolute hq
    rw [join_of_isAbsolute hq, hparts, List.foldl_cons, List.foldl_cons]
    rfl
  | false => rw [foldl_parts_join enter (fun _ => rfl) [] p hq]

/-- Folding the parts of a normal form gives the folded parts of the path. -/
theorem foldl_fold_parts_normalize (p : Path) :
    p.normalize.parts.foldl fold [] = p.parts.foldl fold [] := by
  rw [parts_normalize_eq_reverse, (folded_parts p).foldl_reverse]

/-- Normalizing a path again changes nothing, and neither does normalizing it before another is
joined to it. The parts of a normal form are folded, and below every directory it leads to where
the path leads. -/
theorem normalize_absorbs (p q : Path) :
    p.normalize.normalize = p.normalize ∧
      (p.normalize.join q.text).normalize = (p.join q.text).normalize ∧
      Folded p.normalize.parts.reverse ∧
      ∀ dir : Path, (dir.join p.normalize.text).location = (dir.join p.text).location := by
  have hagain := foldl_fold_parts_normalize p
  refine ⟨by rw [normalize_eq p.normalize, hagain, ← normalize_eq], ?_, ?_,
    fun dir => ?_⟩
  · cases hq : q.isAbsolute with
    | true => rw [join_of_isAbsolute hq, join_of_isAbsolute hq]
    | false =>
      have hfold (p : Path) := foldl_parts_join fold (fun _ => rfl) [] p hq
      rw [normalize_eq (p.normalize.join q.text), normalize_eq (p.join q.text), hfold, hfold,
        hagain]
  · rw [parts_normalize_eq_reverse, List.reverse_reverse]
    exact folded_parts p
  · rw [location_join dir p.normalize, location_join, foldl_enter_parts_normalize]

end ScriptModules.Path

import Mathlib.Data.List.Induction
import ScriptModules.Proofs.Files.Normalized

/-!
# Locations and normal forms

The root is its own parent, so a step up at the root leads nowhere. The normal form of an absolute
path spells the names that lead to its location, but it keeps the steps up at the root before them.
So paths of one location have one normal form only if they step up at the root equally often.
-/

namespace ScriptModules.Path

variable {p q : Path}

/-- A way from the root is spelled by its pieces. -/
theorem shortest_ofParts {steps : List Part} (h : ∀ part ∈ steps, IsStep part) :
    Shortest (ofParts (.root :: steps)) (steps.map Part.piece) := by
  induction steps using List.reverseRecOn with
  | nil => exact ⟨rfl, by simp, by simp⟩
  | append_singleton steps part ih =>
    have hbefore := ih fun part hpart => h part (List.mem_append_left _ hpart)
    rw [List.map_append, List.map_singleton, ← List.cons_append, ofParts, List.foldl_append]
    cases h part (List.mem_append_right _ List.mem_cons_self) with
    | up =>
      have hup : '/' ∉ "..".toList ∧ isIdle ".." = false := by decide
      exact hbefore.concat hup.1 hup.2
    | name hname => exact hbefore.join hname

/-- The normal form of an absolute path has no pieces but its steps up and the names to its
location. -/
theorem shortest_normalize (h : p.isAbsolute = true) :
    Shortest p.normalize (List.replicate p.excess ".." ++ p.location) := by
  have hparts := parts_normalize_eq h
  have hpieces :
      (List.replicate p.excess Part.up ++ List.map Part.name p.location).map Part.piece =
      List.replicate p.excess ".." ++ p.location := by
    rw [List.map_append, List.map_replicate, List.map_map]
    exact congrArg _ (List.map_id _)
  obtain ⟨steps, hsteps, hstep⟩ := exists_parts_of_isAbsolute (isNormal_normalize h).isAbsolute
  obtain rfl := (List.cons.inj (hsteps.symm.trans hparts)).2
  rw [← hpieces, ← ofParts_parts_normalize h, hparts]
  exact shortest_ofParts hstep

/-- The normal form leads to the location of the path. -/
theorem location_normalize (h : p.isAbsolute = true) : p.normalize.location = p.location :=
  location_of_parts (parts_normalize_eq h)

/-- The normal form steps up at the root as often as the path. -/
theorem excess_normalize (h : p.isAbsolute = true) : p.normalize.excess = p.excess :=
  excess_of_parts (parts_normalize_eq h)

/-- Two absolute paths have one normal form just when they lead to one location and step up at the
root equally often. The normal form is absolute and leads to the location of the path. It has no
pieces that lead nowhere, and no steps up but those at the root. -/
theorem normalize_eq_normalize_iff (hp : p.isAbsolute = true) (hq : q.isAbsolute = true) :
    (p.normalize = q.normalize ↔ p.location = q.location ∧ p.excess = q.excess) ∧
      p.normalize.isAbsolute = true ∧ p.normalize.location = p.location ∧
      p.normalize.parts = .root :: (List.replicate p.excess .up ++ List.map .name p.location) ∧
      Shortest p.normalize (List.replicate p.excess ".." ++ p.location) := by
  refine ⟨⟨fun h => ?_, fun ⟨hlocation, hexcess⟩ => ?_⟩, (isNormal_normalize hp).isAbsolute,
    location_normalize hp, parts_normalize_eq hp, shortest_normalize hp⟩
  · rw [← location_normalize hp, ← excess_normalize hp, h]
    exact ⟨location_normalize hq, excess_normalize hq⟩
  · rw [← ofParts_parts_normalize hp, ← ofParts_parts_normalize hq, parts_normalize_eq hp,
      parts_normalize_eq hq, hlocation, hexcess]

/-- A step up at the root is kept, so that two paths to one place differ in their normal forms. -/
theorem normalize_eq_normalize_iff_above :
    (⟨"/../a"⟩ : Path).isAbsolute = true ∧ (⟨"/b/.././a/"⟩ : Path).isAbsolute = true ∧
      (⟨"/../a"⟩ : Path).normalize ≠ (⟨"/b/.././a/"⟩ : Path).normalize ∧
      (⟨"/../a"⟩ : Path).normalize.parts = [.root, .up, .name "a"] ∧
      (⟨"/b/.././a/"⟩ : Path).normalize = ⟨"/a"⟩ := by
  have habove : (⟨"/../a"⟩ : Path).isAbsolute = true := by decide
  have hbelow : (⟨"/b/.././a/"⟩ : Path).isAbsolute = true := by decide
  obtain ⟨hiff, -, -, hparts, -⟩ := normalize_eq_normalize_iff habove hbelow
  obtain ⟨-, -, -, -, hshortest⟩ := normalize_eq_normalize_iff hbelow habove
  refine ⟨habove, hbelow, fun h => ?_, hparts, hshortest.eq⟩
  exact absurd (hiff.mp h).2 (by decide)

/-- A path that steps up at the root and one that does not lead to the same location. -/
theorem not_forall_normalize_eq_of_location_eq :
    ¬ (∀ p q : Path, p.isAbsolute = true → q.isAbsolute = true → p.location = q.location →
        p.normalize = q.normalize) ∧
      ¬ ∀ p : Path, p.isAbsolute = true → .up ∉ p.normalize.parts := by
  refine ⟨fun h => ?_, fun h => ?_⟩
  · have heq := h ⟨"/../a"⟩ ⟨"/a"⟩ (by decide) (by decide) (by decide)
    revert heq
    decide
  · have hup := h ⟨"/../a"⟩ (by decide)
    revert hup
    decide

end ScriptModules.Path

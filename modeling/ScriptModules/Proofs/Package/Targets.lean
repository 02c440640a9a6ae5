import ScriptModules.Proofs.Files.Parts
import ScriptModules.Proofs.Package.Conditions

/-!
# Targets that do not step up

Whatever a table holds and whatever its stars match, none of the targets that it gives has a step
up among its pieces.
-/

namespace ScriptModules.Package

open Json (Value Members)

variable {conditions : List String} {captured? : Option (List Char)} {target : String}

/-- What a target comes to does not step up. -/
theorem stepsUp_of_target? {v : Value} (h : target? conditions captured? v = some target) :
    stepsUp target.toList = false :=
  stepsUp_of_evaluation ((target?_eq_evaluation v).symm.trans h)

/-- What a table tells does not step up. -/
theorem stepsUp_of_lookup? {table : Members} {key : String}
    (h : lookup? conditions table key = some target) : stepsUp target.toList = false := by
  unfold lookup? at h
  dsimp only at h
  split at h
  · exact stepsUp_of_target? h
  · obtain ⟨⟨v, captured⟩, -, hv⟩ := Option.bind_eq_some_iff.mp h
    exact stepsUp_of_target? hv

/-- What a subpath stands for does not step up. -/
theorem stepsUp_of_exportTarget? {exports : Value} {subpath : String}
    (h : exportTarget? exports subpath conditions = some target) :
    stepsUp target.toList = false := by
  unfold exportTarget? at h
  split at h
  · exact stepsUp_of_lookup? h
  · split at h
    · exact stepsUp_of_target? h
    · cases h

/-- A text that does not step up has no step up among its pieces. -/
theorem not_mem_pieces_of_stepsUp (h : stepsUp target.toList = false) :
    ".." ∉ (⟨target⟩ : Path).pieces := by
  intro hmem
  obtain ⟨piece, hpiece, heq⟩ := List.mem_map.mp hmem
  obtain rfl : piece = ['.', '.'] := by
    rw [← String.toList_ofList (l := piece), heq]
    rfl
  exact stepsUp_eq_false_iff.mp h hpiece

end ScriptModules.Package

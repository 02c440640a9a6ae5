import ScriptModules.Project.Owners

/-!
# Known owners

Who owns a file depends on the parts of its directory alone, so an owner that was looked up for
one file is that of every other file there.
-/

namespace ScriptModules.Project

/-- Files of one directory have one owner. -/
theorem Registry.configFor?_congr (r : Registry) {file file' : Path}
    (h : (Owners.dirOf file).parts = (Owners.dirOf file').parts) :
    r.configFor? file = r.configFor? file' := by
  have hstarts (base : Path) :
      (Owners.dirOf file).startsWith base = (Owners.dirOf file').startsWith base := by
    rw [Path.startsWith, Path.startsWith, h]
  have howners : (r.projects.filter fun p => (Owners.dirOf file).startsWith p.dir) =
      r.projects.filter fun p => (Owners.dirOf file').startsWith p.dir := by
    simp only [hstarts]
  unfold Owners.dirOf at howners
  rw [Registry.configFor?, Registry.configFor?, howners]

/-- The owner of a file alone owns it as well. -/
theorem Registry.configFor?_owner (r : Registry) (file : Path) :
    Registry.configFor? ⟨(r.configFor? file).toList⟩ file = r.configFor? file := by
  cases r.configFor? file with
  | none => rfl
  | some owner =>
    unfold Registry.configFor?
    by_cases h : ((file.parent?.getD file).normalize.startsWith owner.dir) = true <;>
      simp [h, Registry.root?]

namespace Owners

/-- Owners that are those of the projects. -/
def Sound (r : Registry) (o : Owners) : Prop :=
  ∀ parts owner, o.known.lookup parts = some owner →
    ∀ file, (dirOf file).parts = parts → r.configFor? file = owner

/-- To know no owners is sound. -/
theorem sound_empty (r : Registry) : Sound r {} := by
  intro parts owner h
  simp at h

/-- Looking up an owner gives the owner, known or not, and keeps what is known right. -/
theorem Sound.lookUp {r : Registry} {o : Owners} (h : Sound r o) (file : Path) :
    (o.lookUp r file).1 = r.configFor? file ∧ Sound r (o.lookUp r file).2 := by
  unfold Owners.lookUp
  split
  · rename_i owner hknown
    exact ⟨(h _ _ hknown file rfl).symm, h⟩
  · refine ⟨rfl, fun parts owner hlookup file' hfile' => ?_⟩
    rw [List.lookup_cons] at hlookup
    split at hlookup
    · rename_i heq
      obtain rfl := Option.some.inj hlookup
      exact r.configFor?_congr (hfile'.trans (beq_iff_eq.mp heq))
    · exact h parts owner hlookup file' hfile'

end Owners

end ScriptModules.Project

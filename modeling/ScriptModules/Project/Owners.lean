import ScriptModules.Project.Registry

/-!
# Owners of files

The owner of a file depends on the directory around it alone, and is looked up once for each
directory.
-/

namespace ScriptModules.Project

/-- The owners that were looked up, by the directories of the files. -/
structure Owners where
  known : List (List Path.Part × Option Config) := []
  deriving Repr

namespace Owners

/-- The directory that decides who owns a file. -/
def dirOf (file : Path) : Path := (file.parent?.getD file).normalize

/-- The project that owns a file, and what is known of owners after that. -/
def lookUp (r : Registry) (file : Path) (o : Owners) : Option Config × Owners :=
  match o.known.lookup (dirOf file).parts with
  | some owner => (owner, o)
  | none => (r.configFor? file, ⟨((dirOf file).parts, r.configFor? file) :: o.known⟩)

end Owners

end ScriptModules.Project

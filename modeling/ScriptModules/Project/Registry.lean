import ScriptModules.Project.Config

/-!
# The projects of a session

The nearest configuration above the working directory is the root; the projects it refers to
follow breadth first, each once.
-/

namespace ScriptModules.Project

/-- The projects in the order they were found. -/
structure Registry where
  projects : List Config := []
  deriving Repr

namespace Registry

/-- The name of configuration files. -/
def fileName : String := "tsconfig.json"

/-- The nearest configuration at or above a directory. -/
def findUpward? (t : Files.Tree) (start : Path) : Option Path :=
  ((start.ancestors.map (·.join fileName)).find? t.isFile).map Path.normalize

/-- Follow references breadth first. Those that were seen or are no files are passed over; at most
`limit` configurations are read. -/
def follow (t : Files.Tree) (load : Path → Except Fault Config) (limit : Nat) (seen : List Path)
    (queue : List Path) (found : List Config) : Except Fault (List Config) :=
  match queue with
  | [] => .ok found
  | reference :: rest =>
    if seen.any (·.same reference) then follow t load limit seen rest found
    else if !t.isFile reference then follow t load limit (reference :: seen) rest found
    else
      match limit with
      | 0 => .ok found
      | limit + 1 =>
        match load reference with
        | .error fault => .error fault
        | .ok config =>
          follow t load limit (reference :: seen) (rest ++ config.references) (found ++ [config])
termination_by (limit, queue.length)

/-- The projects that a root configuration leads to. -/
def ofRoot (t : Files.Tree) (root : Config) : Except Fault Registry :=
  (follow t (Config.load t) wayLimit [root.path] root.references [root]).map Registry.mk

/-- Find the projects of a working directory, or of the configuration given in place of the
nearest one. Finding none is no fault. -/
def discover (t : Files.Tree) (cwd : Path) (override? : Option String) :
    Except Fault Registry := do
  let root? :=
    match override? with
    | some path => some (cwd.join path).normalize
    | none => findUpward? t cwd
  match root? with
  | none => return {}
  | some root => ofRoot t (← Config.load t root)

/-- The project that discovery started from. -/
def root? (r : Registry) : Option Config := r.projects.head?

/-- The project that owns a file: the deepest one above it, the last of several, or else the
root. -/
def configFor? (r : Registry) (file : Path) : Option Config :=
  let dir := (file.parent?.getD file).normalize
  let owners := r.projects.filter fun p => dir.startsWith p.dir
  let deepest := owners.foldl (fun (best : Option Config) p =>
    if best.all fun b => b.dir.parts.length ≤ p.dir.parts.length then some p else best) none
  deepest.or r.root?

end Registry

end ScriptModules.Project

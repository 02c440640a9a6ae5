import Mathlib.Data.List.Forall2
import ScriptModules.Proofs.Files.Parts
import ScriptModules.Proofs.Project.Owners
import ScriptModules.Proofs.Text.Patterns

/-!
# Who owns a file

A file is owned by the deepest of the projects around its directory, the last one of several, and by
the root where none is around it. Nobody owns a file only where there are no projects. What was
looked up before has no part in that.
-/

namespace ScriptModules.Project

variable {r : Registry} {dir : Path} {owner : Option Config} {file : Path}

/-- The owner of the files in a directory. -/
inductive Registry.OwnerOf (r : Registry) (dir : Path) : Option Config → Prop
  | deepest {before after : List Config} {p : Config}
    (hprojects : r.projects = before ++ p :: after)
    (haround : p.dir.parts <+: dir.parts)
    (hbefore : ∀ q ∈ before, q.dir.parts <+: dir.parts → q.dir.parts.length ≤ p.dir.parts.length)
    (hafter : ∀ q ∈ after, q.dir.parts <+: dir.parts → q.dir.parts.length < p.dir.parts.length) :
    OwnerOf r dir (some p)
  | root {p : Config} {rest : List Config} (hprojects : r.projects = p :: rest)
    (hnone : ∀ q ∈ r.projects, ¬ q.dir.parts <+: dir.parts) : OwnerOf r dir (some p)
  | nobody (hprojects : r.projects = []) : OwnerOf r dir none

namespace Registry

/-- A project, if it is around a directory. -/
def around? (dir : Path) (p : Config) : Option Config :=
  if dir.startsWith p.dir then some p else none

/-- A project yields to one that is as deep. -/
def yieldsDeeper (p q : Config) : Bool := decide (p.dir.parts.length ≤ q.dir.parts.length)

/-- What yields to deeper projects ranks them. -/
theorem ranks_yieldsDeeper : Text.Ranks yieldsDeeper :=
  Text.ranks_le fun p : Config => p.dir.parts.length

/-- A project comes into question if it is around the directory, and as itself. -/
theorem around?_eq_some_iff {p q : Config} :
    around? dir p = some q ↔ p.dir.parts <+: dir.parts ∧ p = q := by
  rw [around?, ← Path.startsWith_iff]
  split <;> simp_all

/-- A project that is not around the directory does not come into question. -/
theorem around?_eq_none_iff {p : Config} : around? dir p = none ↔ ¬ p.dir.parts <+: dir.parts := by
  rw [around?, ← Path.startsWith_iff]
  split <;> simp_all

/-- What holds of all projects that come into question holds of all around the directory. -/
theorem forall_around?_iff {projects : List Config} {P : Config → Prop} :
    (∀ p ∈ projects, ∀ q, around? dir p = some q → P q) ↔
      ∀ p ∈ projects, p.dir.parts <+: dir.parts → P p := by
  refine forall₂_congr fun p _ => ⟨fun h hp => h p (around?_eq_some_iff.mpr ⟨hp, rfl⟩), ?_⟩
  intro h q hq
  obtain ⟨hp, rfl⟩ := around?_eq_some_iff.mp hq
  exact h hp

/-- The owner is what a scan for the deepest project keeps, or else the root. -/
theorem configFor?_eq (r : Registry) (file : Path) :
    r.configFor? file = (r.projects.foldl
      (Text.keepBetter (around? (Owners.dirOf file)) yieldsDeeper) none).or r.root? := by
  rw [configFor?, List.foldl_filter]
  congr 2
  funext best? p
  rw [Text.keepBetter, around?, ← Owners.dirOf]
  by_cases h : (Owners.dirOf file).startsWith p.dir = true
  · rw [if_pos h, if_pos h]
    rfl
  · rw [if_neg h, if_neg h]

/-- Of the projects around a directory the first of the deepest is found. -/
theorem OwnerOf.foldl_eq {before after : List Config} {p : Config}
    (haround : p.dir.parts <+: dir.parts)
    (hbefore : ∀ q ∈ before, q.dir.parts <+: dir.parts → q.dir.parts.length ≤ p.dir.parts.length)
    (hafter : ∀ q ∈ after, q.dir.parts <+: dir.parts → q.dir.parts.length < p.dir.parts.length) :
    (before ++ p :: after).foldl (Text.keepBetter (around? dir) yieldsDeeper) none = some p :=
  Text.IsBest.foldl_eq
    { here := around?_eq_some_iff.mpr ⟨haround, rfl⟩
      earlier := forall_around?_iff.mpr fun q hq h => decide_eq_true (hbefore q hq h)
      later := forall_around?_iff.mpr fun q hq h =>
        decide_eq_false (Nat.not_le_of_lt (hafter q hq h)) }

/-- No project is found just when none is around the directory. -/
theorem foldl_around?_eq_none_iff (dir : Path) (projects : List Config) :
    projects.foldl (Text.keepBetter (around? dir) yieldsDeeper) none = none ↔
      ∀ q ∈ projects, ¬ q.dir.parts <+: dir.parts := by
  rw [Text.foldl_keepBetter_eq_none_iff ranks_yieldsDeeper]
  exact forall₂_congr fun q _ => around?_eq_none_iff

/-- Every directory has one owner, or nobody. -/
theorem configFor?_eq_iff (r : Registry) (file : Path) (owner : Option Config) :
    r.configFor? file = owner ↔ r.OwnerOf (Owners.dirOf file) owner := by
  rw [configFor?_eq]
  constructor
  · rintro rfl
    cases hdeepest : r.projects.foldl
        (Text.keepBetter (around? (Owners.dirOf file)) yieldsDeeper) none with
    | some p =>
      obtain ⟨before, q, after, hprojects, hbest⟩ :=
        (Text.foldl_keepBetter_eq_some_iff ranks_yieldsDeeper).mp hdeepest
      obtain ⟨haround, rfl⟩ := around?_eq_some_iff.mp hbest.here
      refine .deepest hprojects haround (fun p hp h => ?_) fun p hp h => ?_
      · exact of_decide_eq_true (forall_around?_iff.mp hbest.earlier p hp h)
      · exact Nat.lt_of_not_le (of_decide_eq_false (forall_around?_iff.mp hbest.later p hp h))
    | none =>
      have hnone := (foldl_around?_eq_none_iff _ _).mp hdeepest
      rw [Option.none_or, root?]
      cases hprojects : r.projects with
      | nil => exact .nobody hprojects
      | cons p rest => exact .root hprojects hnone
  · rintro (⟨hprojects, haround, hbefore, hafter⟩ | ⟨hprojects, hnone⟩ | hprojects)
    · rw [hprojects, OwnerOf.foldl_eq haround hbefore hafter, Option.some_or]
    · rw [(foldl_around?_eq_none_iff _ _).mpr hnone, Option.none_or, root?, hprojects]
      rfl
    · rw [root?, hprojects]
      rfl

end Registry

namespace Owners

/-- The owners of some files, and what is known of owners after that. -/
def lookUpAll (r : Registry) : List Path → Owners → List (Option Config) × Owners
  | [], o => ([], o)
  | file :: rest, o =>
    let (owner, o) := lookUp r file o
    let (owners, o) := lookUpAll r rest o
    (owner :: owners, o)

/-- All owners that are looked up are owners, and what is known stays right. -/
theorem Sound.lookUpAll {o : Owners} (h : Sound r o) (files : List Path) :
    (lookUpAll r files o).1 = files.map r.configFor? ∧ Sound r (lookUpAll r files o).2 := by
  induction files generalizing o with
  | nil => exact ⟨rfl, h⟩
  | cons file rest ih =>
    obtain ⟨howner, hsound⟩ := h.lookUp file
    obtain ⟨howners, hrest⟩ := ih hsound
    exact ⟨congrArg₂ List.cons howner howners, hrest⟩

/-- After any files, looking up files gives the owner of each. -/
theorem lookUpAll_eq_iff (r : Registry) (earlier files : List Path)
    (owners : List (Option Config)) :
    (lookUpAll r files (lookUpAll r earlier {}).2).1 = owners ↔
      List.Forall₂ (fun file owner => r.OwnerOf (dirOf file) owner) files owners := by
  obtain ⟨-, hsound⟩ := (sound_empty r).lookUpAll earlier
  rw [(hsound.lookUpAll files).1, ← List.forall₂_eq_eq_eq, List.forall₂_map_left_iff]
  exact ⟨List.Forall₂.imp fun file owner => (r.configFor?_eq_iff file owner).mp,
    List.Forall₂.imp fun file owner => (r.configFor?_eq_iff file owner).mpr⟩

end Owners

end ScriptModules.Project

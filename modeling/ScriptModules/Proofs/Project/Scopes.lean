import ScriptModules.Project.Config
import ScriptModules.Proofs.Except
import ScriptModules.Proofs.Files.Below
import ScriptModules.Proofs.Project.Globs
import ScriptModules.Proofs.Specifier.Forms

/-!
# The files of a project

An entry that names a directory covers everything below it, as a pattern of what is included and as
one of what is excluded. Only files below the directory of the configuration are included, but for
those that are listed by name.
-/

namespace ScriptModules

/-- A path that goes on from another. -/
def Path.StrictlyBelow (p base : Path) : Prop := base.parts <+: p.parts ∧ base.parts ≠ p.parts

instance (p base : Path) : Decidable (p.StrictlyBelow base) :=
  inferInstanceAs (Decidable (_ ∧ _))

namespace Project

open Glob (isMatch isSpecial)

/-- What an entry of a list names. -/
def Declared.target (d : Declared) (entry : String) : Path := (d.dir.join entry).normalize

/-- An entry that names a directory at or below another one, where the way between them ends in no
extension and has nothing in it that is special in patterns. -/
structure Declared.NamesDirectory (d : Declared) (dir : Path) (entry : String) : Prop where
  listed : entry ∈ d.names
  way : ∃ way, (d.target entry).below? dir = some way ∧ way.extension? = none ∧
    ∀ c ∈ way.text.toList, isSpecial c = false

/-- The patterns of what is excluded, by default those of installed packages. -/
def Layer.excludedFrom (layer : Layer) (dir : Path) : Declared :=
  layer.excluded.getD ⟨["node_modules", "bower_components", "jspm_packages"], dir⟩

/-- Whether a file is listed by name. -/
def Config.lists (c : Config) (file : Path) : Bool := c.scope.files.any (·.same file.normalize)

/-- Whether a pattern of what is excluded matches a file. -/
def Config.excludes (c : Config) (file : Path) : Bool :=
  (file.normalize.below? c.scope.dir).any fun relative =>
    c.scope.excluded.any (isMatch · relative.text)

section
variable {dir way : Path} {d : Declared} {entry covering : String}

/-- A way that leads nowhere stands for everything. -/
theorem expandPattern_of_root (hway : (d.target entry).below? dir = some way)
    (hroot : way.text = "" ∨ way.text = "/") : expandPattern dir d.dir covering entry = "**/*" := by
  unfold expandPattern
  dsimp only
  rw [← Declared.target, hway, Option.getD_some]
  rcases hroot with hroot | hroot <;> rw [hroot] <;> rfl

/-- Nothing is trimmed or replaced in any other way. -/
theorem expandPattern_of_open (hway : (d.target entry).below? dir = some way)
    (hextension : way.extension? = none) (hplain : ∀ c ∈ way.text.toList, isSpecial c = false)
    (hopen : Path.Open way) : expandPattern dir d.dir covering entry = way.text ++ covering := by
  have hne {special : Char} (h : isSpecial special = true) : special ∉ way.text.toList := by
    intro hmem
    rw [hplain special hmem] at h
    cases h
  have hreplaced : way.text.toList.map (fun c => if c == '\\' then '/' else c) =
      way.text.toList := by
    refine (List.map_congr_left fun c hc => ?_).trans (List.map_id _)
    rw [if_neg]
    · rfl
    intro hslash
    exact hne (by decide) (beq_iff_eq.mp hslash ▸ hc)
  obtain ⟨last, hlast, hslash⟩ := hopen
  have htrimmed : (way.text.toList.reverse.dropWhile (· == '/')).reverse = way.text.toList := by
    obtain ⟨front, hfront⟩ := List.getLast?_eq_some_iff.mp hlast
    rw [hfront, List.reverse_append, List.reverse_singleton, List.singleton_append,
      List.dropWhile_cons_of_neg (by simpa using hslash), List.reverse_cons,
      List.reverse_reverse]
  have hempty : ¬ way.text.toList.isEmpty = true := by
    rw [List.isEmpty_iff]
    intro hnil
    rw [hnil] at hlast
    cases hlast
  have hstars : ¬ Text.endsWith "**" way.text = true := by
    rw [Text.endsWith_iff]
    exact fun hsuffix => hne (by decide : isSpecial '*' = true) (hsuffix.subset (by decide))
  have hstar : way.text.toList.contains '*' = false := by
    rw [List.contains_eq_mem, decide_eq_false_iff_not]
    exact hne (by decide)
  unfold expandPattern
  dsimp only
  rw [← Declared.target, hway, Option.getD_some, hreplaced, htrimmed, String.ofList_toList,
    if_neg hempty, if_neg hstars, hstar, hextension]
  rfl

/-- The pattern of an entry that names a directory matches every file below the directory. -/
theorem exists_isMatch_of_strictlyBelow (hcovers : Glob.Covers covering)
    (h : d.NamesDirectory dir entry) {file : Path} (hfile : file.StrictlyBelow (d.target entry)) :
    ∃ tokens relative, Glob.parse (expandPattern dir d.dir covering entry) = .ok tokens ∧
      file.below? dir = some relative ∧ isMatch tokens relative.text = true := by
  obtain ⟨way, hway, hextension, hplain⟩ := h.way
  obtain ⟨relative, hrelative, htext⟩ := Path.exists_below?_of_prefix hway hfile.1 hfile.2
  rw [← or_assoc] at htext
  rcases htext with hroot | ⟨hopen, more, htext⟩
  · refine ⟨[.leadingDirectories, .many], relative, ?_, hrelative, Glob.isMatch_everything _⟩
    rw [expandPattern_of_root hway hroot]
    rfl
  · obtain ⟨tokens, hparse, hmatch⟩ := hcovers way.text hplain
    refine ⟨tokens, relative, ?_, hrelative, htext ▸ hmatch more⟩
    rw [expandPattern_of_open hway hextension hplain hopen, hparse]

/-- The glob of every entry is among those of its list. -/
theorem mem_of_globsOf {path : Path} {globs : List (List Glob.Token)} {tokens : List Glob.Token}
    (h : globsOf path dir covering d = .ok globs) (hentry : entry ∈ d.names)
    (hparse : Glob.parse (expandPattern dir d.dir covering entry) = .ok tokens) :
    tokens ∈ globs := by
  obtain ⟨tokens', hmem, htokens⟩ := exists_of_mapM_eq_ok h entry hentry
  dsimp only at htokens
  rw [hparse] at htokens
  obtain rfl := Except.ok.inj htokens
  exact hmem

/-- A list with an entry that names a directory has a pattern for every file below it. -/
theorem any_isMatch_of_globsOf (hcovers : Glob.Covers covering) {path : Path}
    {globs : List (List Glob.Token)} (h : globsOf path dir covering d = .ok globs)
    (hentry : d.NamesDirectory dir entry) {file : Path}
    (hfile : file.StrictlyBelow (d.target entry)) :
    ∃ relative, file.below? dir = some relative ∧
      globs.any (isMatch · relative.text) = true := by
  obtain ⟨tokens, relative, hparse, hrelative, hmatch⟩ :=
    exists_isMatch_of_strictlyBelow hcovers hentry hfile
  exact ⟨relative, hrelative,
    List.any_eq_true.mpr ⟨tokens, mem_of_globsOf h hentry.listed hparse, hmatch⟩⟩

end

variable {path : Path} {layer : Layer} {json : Json.Value} {config : Config}

/-- The scope of a configuration goes by its directory and by the lists of its layer. -/
theorem scope_of_assemble (h : Config.assemble path layer json = .ok config) :
    config.scope.dir = config.dir ∧
      (∀ d ∈ layer.included, ∃ globs, globsOf path config.dir "/**/*" d = .ok globs ∧
        config.scope.included = some globs) ∧
      globsOf path config.dir "/**" (layer.excludedFrom config.dir) =
        .ok config.scope.excluded := by
  obtain ⟨scope, hscope, hconfig⟩ := exists_of_bind_eq_ok h
  obtain rfl := Except.ok.inj hconfig
  unfold scopeOf at hscope
  extract_lets files included excludes at hscope
  have hexcludes {included : Option (List (List Glob.Token))}
      (h : excludes included = .ok scope) :
      scope.dir = dirOf path ∧ scope.included = included ∧
        globsOf path (dirOf path) "/**" (layer.excludedFrom (dirOf path)) = .ok scope.excluded := by
    obtain ⟨excluded, hexcluded, h⟩ := exists_of_bind_eq_ok h
    obtain rfl := Except.ok.inj h
    exact ⟨rfl, rfl, hexcluded⟩
  cases hincluded : included with
  | none =>
    rw [hincluded] at hscope
    obtain ⟨hdir, -, hexcluded⟩ := hexcludes hscope
    refine ⟨hdir, fun d hd => ?_, hexcluded⟩
    obtain hd := Option.mem_def.mp hd
    simp [included, hd] at hincluded
  | some d' =>
    rw [hincluded] at hscope
    obtain ⟨globs', hglobs', hscope⟩ := exists_of_bind_eq_ok hscope
    obtain ⟨globs, hglobs, rfl⟩ := exists_of_map_eq_ok hglobs'
    obtain ⟨hdir, hscopeIncluded, hexcluded⟩ := hexcludes hscope
    refine ⟨hdir, fun d hd => ⟨globs, ?_, hscopeIncluded⟩, hexcluded⟩
    obtain hd := Option.mem_def.mp hd
    obtain rfl : d = d' := by simpa [included, hd] using hincluded
    exact hglobs

/-- A file is in a project if it is listed, or if it is matched by what is included and not by what
is excluded. -/
theorem includes_eq (config : Config) (file : Path) :
    config.includes file = (config.lists file ||
      (config.scope.included.any fun globs => (file.normalize.below? config.scope.dir).any
        fun relative => globs.any (isMatch · relative.text)) && !config.excludes file) := by
  unfold Config.includes Config.excludes
  dsimp only
  rw [← Config.lists]
  cases config.lists file with
  | true => rfl
  | false =>
    cases config.scope.included with
    | none => rfl
    | some globs => cases file.normalize.below? config.scope.dir <;> simp

/-- An entry that names a directory covers every file below it that is not excluded, one of what is
excluded removes every such file, and outside of the directory of the configuration nothing belongs
to the project, each but for the files that are listed by name. -/
theorem includes_of_assemble (h : Config.assemble path layer json = .ok config) :
    (∀ d ∈ layer.included, ∀ (entry : String) (file : Path),
      d.NamesDirectory config.dir entry → file.normalize.StrictlyBelow (d.target entry) →
      config.includes file = (config.lists file || !config.excludes file)) ∧
    (∀ (entry : String) (file : Path),
      (layer.excludedFrom config.dir).NamesDirectory config.dir entry →
      file.normalize.StrictlyBelow ((layer.excludedFrom config.dir).target entry) →
      config.includes file = config.lists file) ∧
    ∀ file : Path, ¬ config.dir.parts <+: file.normalize.parts →
      config.includes file = config.lists file := by
  obtain ⟨hdir, hincluded, hexcluded⟩ := scope_of_assemble h
  refine ⟨fun d hd entry file hentry hfile => ?_, fun entry file hentry hfile => ?_,
    fun file hfile => ?_⟩
  · obtain ⟨globs, hglobs, hscope⟩ := hincluded d hd
    obtain ⟨relative, hrelative, hmatch⟩ :=
      any_isMatch_of_globsOf Glob.covers_included hglobs hentry hfile
    rw [includes_eq, hscope, hdir, hrelative, Option.any_some, Option.any_some, hmatch,
      Bool.true_and]
  · obtain ⟨relative, hrelative, hmatch⟩ :=
      any_isMatch_of_globsOf Glob.covers_excluded hexcluded hentry hfile
    have hexcludes : config.excludes file = true := by
      rw [Config.excludes, hdir, hrelative, Option.any_some, hmatch]
    rw [includes_eq, hexcludes]
    simp
  · have hbelow : file.normalize.below? config.dir = none := by
      rw [Path.below?, if_neg]
      rwa [Path.startsWith_iff]
    rw [includes_eq, hdir, hbelow]
    simp

/-- A configuration that has a property, if it can be put together at all. -/
theorem exists_assemble_of_any {P : Config → Bool}
    (h : (Config.assemble path layer json).toOption.any P = true) :
    ∃ config, Config.assemble path layer json = .ok config ∧ P config = true := by
  cases hconfig : Config.assemble path layer json with
  | error fault =>
    rw [hconfig] at h
    cases h
  | ok config =>
    rw [hconfig] at h
    exact ⟨config, rfl, h⟩

/-- A layer that includes sources but for the generated ones. -/
def withoutGenerated : Layer where
  included := some ⟨["src"], ⟨"/project"⟩⟩
  excluded := some ⟨["src/gen"], ⟨"/project"⟩⟩

/-- Sources belong to the project, but neither generated ones nor what lies elsewhere. -/
theorem includes_of_assemble_src : ∃ config,
    Config.assemble ⟨"/project/tsconfig.json"⟩ withoutGenerated .null = .ok config ∧
      config.includes ⟨"/project/src/a.ts"⟩ =
        (config.lists ⟨"/project/src/a.ts"⟩ || !config.excludes ⟨"/project/src/a.ts"⟩) ∧
      config.includes ⟨"/project/src/gen/a.ts"⟩ = config.lists ⟨"/project/src/gen/a.ts"⟩ ∧
      config.includes ⟨"/shared/a.ts"⟩ = config.lists ⟨"/shared/a.ts"⟩ := by
  have hassemble : (Config.assemble ⟨"/project/tsconfig.json"⟩ withoutGenerated
      .null).toOption.any (fun config => config.dir == ⟨"/project"⟩) = true := by decide +kernel
  obtain ⟨config, hconfig, hdir⟩ := exists_assemble_of_any hassemble
  have hdir : config.dir = ⟨"/project"⟩ := beq_iff_eq.mp hdir
  obtain ⟨hincluded, hexcluded, houtside⟩ := includes_of_assemble hconfig
  rw [hdir] at hincluded hexcluded houtside
  have hplain {text : String} (h : text.toList.all (!isSpecial ·) = true) :
      ∀ c ∈ text.toList, isSpecial c = false := by
    simpa using h
  refine ⟨config, hconfig, hincluded _ rfl "src" _ ⟨by decide, ⟨"src"⟩, ?_, ?_, ?_⟩ ?_,
    hexcluded "src/gen" _ ⟨by decide, ⟨"src/gen"⟩, ?_, ?_, ?_⟩ ?_, houtside _ ?_⟩
  case refine_3 | refine_7 => exact hplain (by decide)
  all_goals decide +kernel

/-- Every file below what an entry names belongs to the project, if the entry has no wildcard and
its last part no extension. -/
def EntriesCover (layer : Layer) (config : Config) : Prop :=
  ∀ d ∈ layer.included, ∀ (entry : String) (file : Path), entry ∈ d.names →
    '*' ∉ entry.toList → '?' ∉ entry.toList → (⟨entry⟩ : Path).extension? = none →
    file.normalize.StrictlyBelow (d.target entry) → config.excludes file = false →
    config.includes file = true

/-- A layer with one entry that excludes nothing. -/
def including (dir entry : String) : Layer where
  included := some ⟨[entry], ⟨dir⟩⟩
  excluded := some ⟨[], ⟨dir⟩⟩

/-- An entry, declared in some directory, that does not cover the directory that it names. -/
def Uncovered (dir entry : String) : Prop :=
  ∃ config, Config.assemble ⟨"/project/tsconfig.json"⟩ (including dir entry) .null = .ok config ∧
    ¬ EntriesCover (including dir entry) config

/-- An entry does not cover its directory if a file below belongs to no project, though nothing
excludes it. -/
theorem uncovered_of_file {dir entry : String} (file : Path)
    (hassemble : (Config.assemble ⟨"/project/tsconfig.json"⟩ (including dir entry)
      .null).toOption.any (fun config => !config.includes file && !config.excludes file) = true)
    (hwildcards : '*' ∉ entry.toList ∧ '?' ∉ entry.toList)
    (hextension : (⟨entry⟩ : Path).extension? = none)
    (hfile : file.normalize.StrictlyBelow (Declared.target ⟨[entry], ⟨dir⟩⟩ entry)) :
    Uncovered dir entry := by
  obtain ⟨config, hconfig, hnot⟩ := exists_assemble_of_any hassemble
  refine ⟨config, hconfig, fun hcover => ?_⟩
  rw [Bool.and_eq_true, Bool.not_eq_true', Bool.not_eq_true'] at hnot
  have hincludes := hcover _ rfl entry file List.mem_cons_self hwildcards.1 hwildcards.2
    hextension hfile hnot.2
  rw [hnot.1] at hincludes
  cases hincludes

/-- The directory of an entry may lie elsewhere, its name may be special in patterns, and so may
be the name of the directory that the entry is declared in, or have an extension. -/
theorem uncovered_entries :
    Uncovered "/project" "../shared" ∧ Uncovered "/project" "[id]" ∧
      Uncovered "/project/base.d" "." ∧ Uncovered "/project/a*b" "src" := by
  refine ⟨uncovered_of_file ⟨"/shared/a.ts"⟩ ?_ ?_ ?_ ?_,
    uncovered_of_file ⟨"/project/[id]/a.ts"⟩ ?_ ?_ ?_ ?_,
    uncovered_of_file ⟨"/project/base.d/a.ts"⟩ ?_ ?_ ?_ ?_,
    uncovered_of_file ⟨"/project/a*b/src/a.ts"⟩ ?_ ?_ ?_ ?_⟩
  all_goals decide +kernel

end Project

end ScriptModules

import ScriptModules.Proofs.Package.Around
import ScriptModules.Proofs.Resolve.Depth
import ScriptModules.Proofs.Url.Relative
import ScriptModules.Resolve.Host

/-!
# Candidates of a relative name

Where a file stands, asking the host comes to it, and where there is none, nothing changes. So a
search of candidates does as asking for the first one does where a file stands.
-/

namespace ScriptModules.Resolve

open Package.Cache (ManifestsRead Told packageDir)
open Url (IsExtension Relative)

variable {σ : Type} {s : Session} {c : Context} {parent : Url} {x specifier : String}

/-- Whether a file stands where a name points to from a module. -/
def isFileFrom (t : Files.Tree) (base : Url) (name : String) : Bool :=
  (base.fileFrom? name).any t.isFile

/-- Whether a directory stands where a name points to from a module. -/
def isDirectoryFrom (t : Files.Tree) (base : Url) (name : String) : Bool :=
  (base.fileFrom? name).any t.isDirectory

/-- The extensions of sources and of what is compiled from them. -/
def codeExtensions : List String :=
  Specifier.sourceExtensions.flatMap fun (compiled, sources) => compiled :: sources

/-- No directory is named like a source or what is compiled from one. -/
def NoCodeDirectories (t : Files.Tree) : Prop :=
  ∀ p : Path, t.isDirectory p = true → ∀ letters, p.extension? = some letters →
    "." ++ letters ∉ codeExtensions

/-- No directory is named like a source if the names of the directories have no extensions. -/
theorem noCodeDirectories_of_at? {t : Files.Tree}
    (h : ∀ way, t.at? way = some .directory → ∀ name ∈ way.getLast?,
      Path.extensionOfName? name = none) : NoCodeDirectories t := by
  intro p hdirectory letters hletters
  obtain ⟨way, hway, hat⟩ : ∃ way, t.wayOf p = .ok way ∧ t.at? way = some .directory := by
    unfold Files.Tree.isDirectory at hdirectory
    split at hdirectory
    · exact Files.Tree.entry_eq_ok ‹_›
    · cases hdirectory
  obtain ⟨name, hname, hextension⟩ := Option.bind_eq_some_iff.mp hletters
  rw [h way hat name (Files.Tree.getLast?_of_wayOf hway hname)] at hextension
  cases hextension

/-- A name was resolved to where it points to, or the type of the package there cannot be told
because a manifest has too long a path. -/
def Reaches (parent : Url) (x : String) (result : Except Fault Target) : Prop :=
  ∃ u path, parent.join x = .ok u ∧ u.toPath? = some path ∧
    ((∃ format, result = .ok ⟨u, some format⟩) ∨
      ∃ dir ∈ (packageDir path).ancestors, Files.Tree.TooLong (dir.join "package.json") ∧
        result = .error (.config (.read (dir.join "package.json") .nameTooLong)))

/-- A name that was not resolved failed at a manifest. -/
theorem Reaches.exists_config {result : Except Fault Target} (h : Reaches parent x result)
    {f : Fault} (hf : result = .error f) : ∃ cause, f = .config cause := by
  obtain ⟨u, path, -, -, ⟨format, hok⟩ | ⟨dir, -, -, herror⟩⟩ := h
  · rw [hf] at hok
    cases hok
  · rw [hf] at herror
    exact ⟨_, Except.error.inj herror⟩

/-- A relative name starts like a path. -/
theorem hasPathFront_of_relative (h : Relative x) : Specifier.hasPathFront x = true := by
  rcases h.front with h | h <;>
    exact List.any_eq_true.mpr ⟨_, by simp [Specifier.pathFronts], h⟩

/-- A relative name is not that of a directory. -/
theorem isDirectory_of_relative (h : Relative x) : Specifier.isDirectory x = false := by
  rw [Bool.eq_false_iff]
  exact fun hd => h.named (Specifier.isDirectory_iff.mp hd)

/-- The host looks for a path in the place that it points to. -/
theorem host_resolve_path (h : Specifier.hasPathFront x = true) :
    (Host.resolve s x c : Step σ Target) = match Host.baseUrl s c with
      | .ok base =>
        match base.join x with
        | .ok u => Host.resolveFile s u x c
        | .error f => throw (.invalidSpecifier x f.text)
      | .error f => throw f := by
  have hbuiltin : Specifier.isBuiltin x = false := by
    obtain ⟨front, hmem, rest, hrest⟩ := Specifier.hasPathFront_iff.mp h
    simp only [Specifier.pathFronts, List.mem_cons, List.not_mem_nil, or_false] at hmem
    rw [Specifier.isBuiltin, ← hrest]
    rcases hmem with rfl | rfl | rfl | rfl <;> simp <;> decide
  funext st
  rw [Host.resolve, Specifier.dropPrefix?_of_hasPathFront h]
  dsimp only
  rw [hbuiltin, if_neg Bool.false_ne_true, if_pos (Specifier.isPath_of_hasPathFront h)]
  rcases Host.baseUrl s c with f | base
  · rfl
  · rfl

/-- The host looks for a relative name in the place that it points to from a module. -/
theorem host_resolve_relative (hparent : c.parent = some parent) (h : Relative x) :
    (Host.resolve s x c : Step σ Target) = match parent.join x with
      | .ok u => Host.resolveFile s u x c
      | .error f => throw (.invalidSpecifier x f.text) := by
  rw [host_resolve_path (hasPathFront_of_relative h), Host.baseUrl, hparent]

/-- The file of a name is that of the URL which the name leads to. -/
theorem fileFrom?_eq {u : Url} (hu : parent.join x = .ok u) : parent.fileFrom? x = u.toPath? := by
  rw [Url.fileFrom?, hu]
  rfl

/-- Where no file stands, the host reports a directory or that nothing is there. -/
theorem host_of_no_file (hparent : c.parent = some parent) (hfile : parent.scheme = "file")
    {base : Path} (hbase : parent.toPath? = some base) (h : Relative x)
    (hno : isFileFrom s.files parent x = false) (st : State σ) :
    Host.resolve s x c st = (.error (if isDirectoryFrom s.files parent x
      then .unsupportedDirectory x x c.parent else .missing x c), st) := by
  obtain ⟨u, path, hu, hpath⟩ := h.exists_path hfile hbase
  rw [isFileFrom, fileFrom?_eq hu, hpath] at hno
  rw [host_resolve_relative hparent h, hu, isDirectoryFrom, fileFrom?_eq hu, hpath]
  dsimp only
  rw [Host.resolveFile, hpath]
  dsimp only [Option.any_some] at hno ⊢
  split
  · rfl
  · rw [hno]
    rfl

/-- A file is no directory. -/
theorem isDirectory_of_isFile {t : Files.Tree} {p : Path} (h : t.isFile p = true) :
    t.isDirectory p = false := by
  unfold Files.Tree.isFile at h
  rw [Files.Tree.isDirectory]
  split at h
  · rename_i hentry
    rw [hentry]
  · cases h

/-- Where a file stands, the host takes it, with the format that can be told by its path. -/
theorem host_of_file (hparent : c.parent = some parent) (h : Relative x) {u : Url} {path : Path}
    (hu : parent.join x = .ok u) (hpath : u.toPath? = some path)
    (hstands : s.files.isFile path = true) : (Host.resolve s x c : Step σ Target) =
      (fun format? => ⟨u, format?⟩) <$> Host.formatOf s path := by
  rw [host_resolve_relative hparent h, hu]
  dsimp only
  rw [Host.resolveFile, hpath]
  dsimp only
  rw [isDirectory_of_isFile hstands, hstands]
  rfl

/-- The format of an executable is the type of its package. -/
theorem formatOf_js {path : Path} (h : path.extension? = some "js") :
    (Host.formatOf s path : Step σ _) =
      some <$> askPackages fun packages => packages.packageType s.files path := by
  unfold Host.formatOf
  rw [h]
  rfl

/-- The format of a file is that of its extension or of its package. -/
theorem formatOf_cases (s : Session) (path : Path) :
    (∃ format?, (Host.formatOf s path : Step σ _) = pure format?) ∨
      (Host.formatOf s path : Step σ _) =
        some <$> askPackages fun packages => packages.packageType s.files path := by
  by_cases h : path.extension? = some "js"
  · exact Or.inr (formatOf_js h)
  · refine Or.inl ?_
    unfold Host.formatOf
    split
    case h_5 hjs => exact absurd hjs h
    all_goals exact ⟨_, rfl⟩

/-- An answer, or the failure to tell a type since a manifest has too long a path. -/
def Tells (dirs : List Path) {α : Type} (result : Except Fault α) : Prop :=
  (∃ a, result = .ok a) ∨ ∃ dir ∈ dirs, Files.Tree.TooLong (dir.join "package.json") ∧
    result = .error (.config (.read (dir.join "package.json") .nameTooLong))

/-- What is made of an answer is told as the answer is. -/
theorem tells_of_told {dirs : List Path} {α β : Type} {result : Except Project.Fault α}
    (h : Told dirs result) (g : α → β) : Tells dirs ((result.map g).mapError Fault.config) := by
  rcases h with ⟨a, rfl⟩ | ⟨dir, hdir, hlong, rfl⟩
  · exact Or.inl ⟨g a, rfl⟩
  · exact Or.inr ⟨dir, hdir, hlong, rfl⟩

/-- The format of a file is told, or a manifest has too long a path. -/
theorem tells_formatOf {dirs : List Path} {path : Path}
    (htold : ∀ packages, Told dirs (Package.Cache.packageType s.files packages path).1)
    (st : State σ) : Tells dirs (Host.formatOf s path st).1 := by
  rcases formatOf_cases (σ := σ) s path with ⟨format?, hformat⟩ | hformat <;> rw [hformat]
  · exact Or.inl ⟨format?, rfl⟩
  · have h := tells_of_told (htold st.packages) some
    rw [run_map, run_askPackages]
    rcases hrun : (Package.Cache.packageType s.files st.packages path).1 with f | format <;>
      rw [hrun] at h <;> exact h

/-- A decided target is told, or a manifest has too long a path. -/
theorem tells_decided {dirs : List Path} {u : Url} {path : Path} (hpath : u.toPath? = some path)
    (htold : ∀ packages, Told dirs (Package.Cache.packageType s.files packages path).1)
    (format? : Option ModuleFormat) (packages : Package.Cache) :
    Tells dirs (Search.decided s ⟨u, format?⟩ packages).1 := by
  unfold Search.decided
  split
  · exact Or.inl ⟨_, rfl⟩
  · refine tells_of_told (?_ : Told dirs (Search.inferredFormat s u packages).1) _
    unfold Search.inferredFormat
    rw [hpath]
    split
    · cases Location.classify u.path with
      | some format => exact Or.inl ⟨format, rfl⟩
      | none => exact htold packages
    · exact Or.inl ⟨.dynamic, rfl⟩

/-- Where a file stands, asking the host comes to it. -/
theorem reaches_askOr (ht : ManifestsRead s.files) (hparent : c.parent = some parent)
    (hfile : parent.scheme = "file") {base : Path} (hbase : parent.toPath? = some base)
    (h : Relative x) {e : String} {letters : List Char} (he : IsExtension e letters)
    (hstands : isFileFrom s.files parent (x ++ e) = true) {failed : Fault → Step σ Target}
    (hconfig : ∀ cause, failed (.config cause) = throw (.config cause)) (st : State σ) :
    Reaches parent (x ++ e) (Search.askOr s (Host.resolve s) (x ++ e) c failed st).1 := by
  obtain ⟨u, path, hu, hpath, hends, -⟩ := h.exists_file hfile hbase he
  rw [isFileFrom, fileFrom?_eq hu, hpath, Option.any_some] at hstands
  have htold := ht.told_packageType hstands hends
  have hformat := tells_formatOf htold st
  rw [Search.run_askOr, host_of_file hparent (h.append_extension he) hu hpath hstands, run_map]
  refine ⟨u, path, hu, hpath, ?_⟩
  rcases hrun : Host.formatOf s path st with ⟨f | format?, after⟩ <;> rw [hrun] at hformat
  · rcases hformat with ⟨_, hformat⟩ | ⟨dir, hdir, hlong, hformat⟩
    · cases hformat
    · obtain rfl := Except.error.inj hformat
      dsimp only
      rw [hconfig]
      exact Or.inr ⟨dir, hdir, hlong, rfl⟩
  · dsimp only
    rw [Search.run_decideFormat]
    rcases tells_decided hpath htold format? after.packages with ⟨⟨u', format'?⟩, ht⟩ | hlong
    · obtain ⟨rfl, hsome⟩ := Search.decided_ok ht
      obtain ⟨format, rfl⟩ := Option.isSome_iff_exists.mp hsome
      exact Or.inl ⟨format, ht⟩
    · exact Or.inr hlong

/-- A step that does as asking the host does for the first of some names where a file stands, and
that fails, in a way that passes, where there is none. -/
def Finds (s : Session) (c : Context) (parent : Url) (passes : Fault → Bool) (m : Step σ Target)
    (names : List String) : Prop :=
  ∀ st, match names.find? (isFileFrom s.files parent) with
    | some x => m st = Search.askOr s (Host.resolve s) x c throw st ∧
      ∀ f, (m st).1 = .error f → ∃ cause, f = .config cause
    | none => ∃ f, m st = (.error f, st) ∧ passes f = true

namespace Finds

variable {passes passes' : Fault → Bool} {m : Step σ Target} {names names' : List String}

/-- A failure that passes finds nothing. -/
theorem throw {f : Fault} (h : passes f = true) :
    Finds s c parent passes (throw f : Step σ Target) [] := fun _ => ⟨f, rfl, h⟩

/-- What fails where no file stands may go on with further names. -/
theorem tryCatch (hm : Finds s c parent passes m names) {handle : Fault → Step σ Target}
    (hpasses : ∀ f, passes f = true → Finds s c parent passes' (handle f) names')
    (hconfig : ∀ cause, handle (.config cause) = MonadExcept.throw (.config cause)) :
    Finds s c parent passes' (MonadExcept.tryCatch m handle) (names ++ names') := by
  intro st
  have hst := hm st
  rw [List.find?_append, run_tryCatch]
  cases hfind : names.find? (isFileFrom s.files parent) with
  | some x =>
    rw [hfind] at hst
    obtain ⟨hask, hfails⟩ := hst
    rcases hrun : m st with ⟨f | t, after⟩ <;> rw [hrun] at hask hfails
    · obtain ⟨cause, rfl⟩ := hfails f rfl
      dsimp only
      rw [hconfig]
      exact ⟨hask, hfails⟩
    · exact ⟨hask, hfails⟩
  | none =>
    rw [hfind] at hst
    obtain ⟨f, hf, hpass⟩ := hst
    rw [hf]
    exact hpasses f hpass st

/-- Failing differently changes nothing about what is found. -/
theorem catch_throw (hm : Finds s c parent passes m names) {other : Fault → Fault}
    (hother : ∀ cause, other (.config cause) = .config cause) :
    Finds s c parent (fun _ => true)
      (MonadExcept.tryCatch m fun f => MonadExcept.throw (other f)) names := by
  rw [← List.append_nil names]
  exact hm.tryCatch (fun _ _ => .throw rfl) fun cause => by rw [hother]

/-- What finds files with some failures passing does so with more of them passing. -/
theorem mono (h : Finds s c parent passes m names)
    (hpasses : ∀ f, passes f = true → passes' f = true) :
    Finds s c parent passes' m names := by
  intro st
  have hst := h st
  split at hst
  · exact hst
  · obtain ⟨f, hf, hpass⟩ := hst
    exact ⟨f, hf, hpasses f hpass⟩

/-- Only the order of first occurrences matters. -/
theorem of_find?_eq (h : Finds s c parent passes m names)
    (hfind : ∀ p : String → Bool, names.find? p = names'.find? p) :
    Finds s c parent passes m names' := by
  intro st
  have hst := h st
  rwa [hfind] at hst

end Finds

/-- A module that is a source, in files whose manifests can be read and whose directories are not
named like sources. -/
structure FromSource (s : Session) (c : Context) (parent : Url) : Prop where
  manifests : ManifestsRead s.files
  directories : NoCodeDirectories s.files
  importer : c.parent = some parent
  scheme : parent.scheme = "file"
  source : Location.isSource parent.path = true

namespace Search

variable {base : Path} {e : String} {letters : List Char}

/-- Asking the host finds a file, or fails as it does where there is none. -/
theorem finds_askOr (h : FromSource s c parent) (hbase : parent.toPath? = some base)
    (hx : Relative x) (he : IsExtension e letters) {passes : Fault → Bool}
    (hpasses : passes (if isDirectoryFrom s.files parent (x ++ e)
      then .unsupportedDirectory (x ++ e) (x ++ e) c.parent else .missing (x ++ e) c) = true) :
    Finds s c parent passes (askOr s (Host.resolve s) (x ++ e) c throw : Step σ Target)
      [x ++ e] := by
  intro st
  cases hstands : isFileFrom s.files parent (x ++ e) with
  | true =>
    rw [List.find?_cons_of_pos hstands]
    have hreaches := reaches_askOr h.manifests h.importer h.scheme hbase hx he hstands
      (fun _ => rfl) st
    exact ⟨rfl, fun f => hreaches.exists_config⟩
  | false =>
    rw [List.find?_cons_of_neg (by simp [hstands]), List.find?_nil, run_askOr,
      host_of_no_file h.importer h.scheme hbase (hx.append_extension he) hstands]
    exact ⟨_, rfl, hpasses⟩

/-- What is named like a source is no directory. -/
theorem isDirectoryFrom_eq_false (h : FromSource s c parent) (hbase : parent.toPath? = some base)
    (hx : Relative x) (he : IsExtension e letters) (hcode : e ∈ codeExtensions) :
    isDirectoryFrom s.files parent (x ++ e) = false := by
  obtain ⟨u, path, hu, hpath, -, hextension⟩ := hx.exists_file h.scheme hbase he
  have hletters : "." ++ String.ofList letters = e := by
    rw [← String.toList_inj, he.toList_eq]
    simp
  rw [isDirectoryFrom, fileFrom?_eq hu, hpath, Option.any_some, Bool.eq_false_iff]
  intro hdirectory
  exact h.directories path hdirectory _ hextension (hletters ▸ hcode)

/-- A candidate that asks for no directory tries its sources and then the host. -/
theorem resolveWithin_nested (h : FromSource s c parent) (hx : Relative x) (next : Resolver σ)
    (depth : Nat) : resolveWithin s next c (depth + 1) x .nested =
      firstOr (resolveWithin s next c depth · .nested) skipsSource (askOr s next x c throw)
        (Specifier.sourceAlternates x) := by
  have hfront := hasPathFront_of_relative hx
  have hsource : prioritySources x c = Specifier.sourceAlternates x := by
    have hsource : c.parentIsSource = true := by
      rw [Context.parentIsSource, h.importer, Option.any_some, h.source]
    rw [prioritySources, if_pos hsource]
  rw [resolveWithin, attempt_path hfront (isDirectory_of_relative hx), searchUnmapped, hsource]
  rfl

/-- Names that are tried before a last one find the first file of all of them. -/
theorem finds_firstOr {passes : Fault → Bool} {tryOne : String → Step σ Target}
    {last : Step σ Target} {names : List String}
    (h : ∀ y ∈ names, Finds s c parent (fun f => f.kind == .notFound) (tryOne y) [y])
    (hlast : Finds s c parent passes last [x]) :
    Finds s c parent passes (firstOr tryOne skipsSource last names) (names ++ [x]) := by
  induction names with
  | nil => exact hlast
  | cons y rest ih =>
    refine (h y List.mem_cons_self).tryCatch (fun f hf => ?_) fun _ => rfl
    rw [skipsSource, hf, Bool.true_or, if_pos rfl]
    exact ih fun z hz => h z (List.mem_cons_of_mem _ hz)

/-- Candidates that are tried one after the other find the first file of all their forms. -/
theorem finds_tryEach {again : Again σ} {candidates : List String}
    {forms : String → List String}
    (h : ∀ y ∈ candidates, Finds s c parent Fault.isRecoverable (again y .nested) (forms y))
    (shown : String) {first? : Option Fault} (hfirst : ∀ f ∈ first?, f.isRecoverable = true) :
    Finds s c parent Fault.isRecoverable (tryEach again shown candidates first? c)
      (candidates.flatMap forms) := by
  induction candidates generalizing first? with
  | nil =>
    intro st
    refine ⟨_, rfl, ?_⟩
    cases first? with
    | none => rfl
    | some f => exact hfirst f rfl
  | cons y rest ih =>
    rw [List.flatMap_cons, tryEach]
    refine (h y List.mem_cons_self).tryCatch (fun f hf => ?_) fun _ => rfl
    rw [if_pos hf]
    refine ih (fun z hz => h z (List.mem_cons_of_mem _ hz)) fun g hg => ?_
    obtain rfl := Option.some.inj hg
    cases first? with
    | none => simpa using hf
    | some f => exact hfirst f rfl

/-- An extension is one of letters. -/
theorem exists_isExtension (he : e ∈ extensions) : ∃ letters, IsExtension e letters := by
  simp only [extensions, List.mem_cons, List.not_mem_nil, or_false] at he
  rcases he with rfl | rfl | rfl | rfl | rfl
  all_goals exact ⟨_, rfl, List.all_eq_true.mp (by decide), _, rfl, by decide⟩

/-- The extensions of the sources that are tried before an extension. -/
def sourcesOf (e : String) : List String := (Specifier.sourceExtensions.lookup e).getD []

/-- The forms of a name with an extension have the extensions of its sources. -/
theorem sourceAlternates_extension (hx : Relative x) (he : e ∈ extensions) :
    Specifier.sourceAlternates (x ++ e) = (sourcesOf e).map (x ++ ·) := by
  have hplain : ∀ d ∈ x.toList, Specifier.inPath d = true := by
    intro d hd
    have hmarks := (Url.unmarked_of_isPlain (hx.plain d hd)).marks
    rw [Specifier.inPath, Bool.and_eq_true, bne_iff_ne, bne_iff_ne]
    constructor <;> rintro rfl <;> simp at hmarks
  have hempty : x.toList ≠ [] := List.ne_nil_of_mem hx.exists_front.2
  exact Specifier.sourceAlternates_append_extension hplain hempty hx.named he

/-- A source has no sources, so that only the host is asked for it. -/
theorem finds_source (h : FromSource s c parent) (hbase : parent.toPath? = some base)
    (hx : Relative x) (he : e ∈ extensions) (hsource : sourcesOf e = [])
    (hcode : e ∈ codeExtensions) (depth : Nat) :
    Finds s c parent (fun f => f.kind == .notFound)
      (resolveWithin s (Host.resolve s) c (depth + 1) (x ++ e) .nested : Step σ Target)
      [x ++ e] := by
  obtain ⟨letters, hletters⟩ := exists_isExtension he
  rw [resolveWithin_nested h (hx.append_extension hletters), sourceAlternates_extension hx he,
    hsource, List.map_nil, firstOr]
  refine finds_askOr h hbase hx hletters ?_
  rw [isDirectoryFrom_eq_false h hbase hx hletters hcode]
  rfl

/-- What is tried before an extension is an extension of a source, and has no sources itself. -/
theorem sourcesOf_spec : ∀ e ∈ extensions, ∀ source ∈ sourcesOf e,
    source ∈ extensions ∧ sourcesOf source = [] ∧ source ∈ codeExtensions := by
  decide

/-- A name with an extension stands for its first source or else for the file of that name. -/
theorem finds_candidate (h : FromSource s c parent) (hbase : parent.toPath? = some base)
    (hx : Relative x) (he : e ∈ extensions) (depth : Nat) :
    Finds s c parent Fault.isRecoverable
      (resolveWithin s (Host.resolve s) c (depth + 2) (x ++ e) .nested : Step σ Target)
      ((sourcesOf e ++ [e]).map (x ++ ·)) := by
  obtain ⟨letters, hletters⟩ := exists_isExtension he
  rw [resolveWithin_nested h (hx.append_extension hletters), sourceAlternates_extension hx he,
    List.map_append, List.map_singleton]
  refine finds_firstOr (fun y hy => ?_) (finds_askOr h hbase hx hletters (by split <;> rfl))
  obtain ⟨source, hsource, rfl⟩ := List.mem_map.mp hy
  obtain ⟨hsource, hnone, hcode⟩ := sourcesOf_spec e he source hsource
  exact finds_source h hbase hx hsource hnone hcode depth

/-- The names that are looked for without an extension, in order. -/
def precedence (specifier : String) : List String :=
  [".ts", ".tsx", ".js", ".json", ".jsx"].map (specifier ++ ·)

/-- Trying the extensions finds the first file in order of precedence. -/
theorem finds_probeExtensions (h : FromSource s c parent) (hbase : parent.toPath? = some base)
    (hx : Relative x) (depth : Nat) :
    Finds s c parent Fault.isRecoverable
      (probeExtensions (resolveWithin s (Host.resolve s) c (depth + 2)) x c : Step σ Target)
      (precedence x) := by
  have hforms : Finds s c parent Fault.isRecoverable
      (probeExtensions (resolveWithin s (Host.resolve s) c (depth + 2)) x c : Step σ Target)
      ((extensions.map (x ++ ·)).flatMap fun y => Specifier.sourceAlternates y ++ [y]) := by
    refine finds_tryEach (fun y hy => ?_) x (by simp)
    obtain ⟨e, he, rfl⟩ := List.mem_map.mp hy
    have := finds_candidate (σ := σ) h hbase hx he depth
    rwa [List.map_append, List.map_singleton, ← sourceAlternates_extension hx he] at this
  have hnames : (extensions.map (x ++ ·)).flatMap (fun y => Specifier.sourceAlternates y ++ [y]) =
      [".ts", ".tsx", ".js", ".json", ".ts", ".tsx", ".tsx", ".jsx"].map (x ++ ·) := by
    have hall : extensions.flatMap (fun e => sourcesOf e ++ [e]) =
        [".ts", ".tsx", ".js", ".json", ".ts", ".tsx", ".tsx", ".jsx"] := by
      decide
    rw [← hall, List.map_flatMap, List.flatMap_map]
    refine List.flatMap_congr fun e he => ?_
    rw [sourceAlternates_extension hx he, List.map_append, List.map_singleton]
  rw [hnames] at hforms
  -- The sources come again, but then they have been tried.
  refine hforms.of_find?_eq fun p => ?_
  cases hts : p (x ++ ".ts") <;> cases htsx : p (x ++ ".tsx") <;>
    simp [precedence, List.find?_cons, hts, htsx]

/-- The index of a directory is a relative name. -/
theorem relative_index (hx : Relative x) : Relative (x ++ "/index") :=
  hx.append (c := 'x') (by simp; decide) (by simp) (by decide)

/-- A directory has the files of its index before those next to it. -/
theorem finds_probeDirectory (h : FromSource s c parent) (hbase : parent.toPath? = some base)
    (hx : Relative x) (depth : Nat) :
    Finds s c parent Fault.isRecoverable
      (probeDirectory (resolveWithin s (Host.resolve s) c (depth + 2)) x c : Step σ Target)
      (precedence (x ++ "/index") ++ precedence x) := by
  rw [probeDirectory, isDirectory_of_relative hx, if_neg Bool.false_ne_true]
  refine (finds_probeExtensions h hbase (relative_index hx) depth).tryCatch (fun f hf => ?_)
    fun _ => rfl
  rw [if_pos hf, ← List.append_nil (precedence x)]
  refine (finds_probeExtensions h hbase hx depth).tryCatch (fun g hg => ?_) fun _ => rfl
  rw [if_pos hg]
  exact .throw (by simpa using hf)

/-- The names that are looked for, by whether the name itself is that of a directory. -/
def candidates (specifier : String) (directory : Bool) : List String :=
  if directory then precedence (specifier ++ "/index") ++ precedence specifier
  else precedence specifier

end Search

end ScriptModules.Resolve

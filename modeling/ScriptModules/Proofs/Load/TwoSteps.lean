import ScriptModules.Proofs.Load.Outcome
import ScriptModules.Proofs.Resolve.Formats

/-!
# One step and two steps

A host that loads a file in the format that resolving it decided, and an older one that asks for the
format and reads the file itself, end alike. What they go by differs: the one by the resolved path,
the other by the URL. So the two have to tell the same of a file.
-/

namespace ScriptModules.Load

open Package (Cache)
open ScriptModules.Path (Shortest)
open Resolve (Settled Tellable)

variable {σ τ : Type} {setup : Setup} {s : Session} {path q : Path} {url : Url} {text : String}
  {format : ModuleFormat} {packages : Cache}

/-- Load the module of a URL in two steps from a text that was read of it. -/
def inTwoSteps (setup : Setup) (text : String) (url : Url) : Step σ (ModuleFormat × String) := do
  let format ← formatBeforeReading setup.session url
  let code ← prepareSource setup text url format
  return (format, code)

/-- The format that a file ends with: what is transpiled becomes a module. -/
def finalFormat (url : Url) (format : ModuleFormat) : ModuleFormat :=
  if Location.isJson url.path || Location.isSource url.path then .module else format

/-- The state with other packages known. -/
def State.knowing (known : Cache) (st : State σ) : State σ := { st with packages := known }

/-- A module of some text. -/
def Loaded.ofText (format : ModuleFormat) (code : String) : Loaded :=
  ⟨some format, some (Text.utf8 code.toList)⟩

/-- Loading a module in one step and in two from its text ends alike: both fail with one fault or
give one format and one text, and they leave the same maps. The second may learn of the packages. -/
def LoadsAlike (setup : Setup) (text : String) (url : Url) (c : Context) (st : State σ) : Prop :=
  load setup (Host.load setup.session) url c st =
    ((inTwoSteps setup text url st).1.map fun made => .ofText made.1 made.2,
      (inTwoSteps setup text url st).2.knowing st.packages)

/-- An executable of a package of modules that uses no syntax of modules. -/
structure Disguised (t : Files.Tree) (q : Path) (text : String) : Prop where
  extension : q.extension? = some "js"
  package : (Cache.packageType t {} q).1 = .ok .module
  plain : Grammar.usesModuleSyntax text = false

/-- A text file by its path and the URL of that. It is no binary module by its name, and no
disguised executable. -/
structure TextFile (s : Session) (path : Path) (url : Url) (text : String) : Prop where
  url_eq : Url.ofPath? path = some url
  text_eq : s.files.readText path = .ok text
  notBinary : path.extension? ≠ some "wasm"
  notDisguised : ∀ q, url.toPath? = some q → ¬ Disguised s.files q text

/-- A text file by its URL, which names it in its shortest spelling. -/
structure Named (s : Session) (url : Url) (q : Path) (text : String) : Prop
    extends Tellable url q where
  read : s.files.read q = .ok (Text.utf8 text.toList)
  shortest : ∃ ps, Shortest q ps
  notDisguised : ¬ Disguised s.files q text

/-- The URL of a text file names it, unless its path ends in a drive. -/
theorem TextFile.named (h : TextFile s path url text) (hdrive : Url.endsInDrive path = false) :
    Named s url (.rooted path.steps) text := by
  obtain ⟨way, bytes, hway, hat, -, -⟩ := Files.Tree.readText_eq_ok h.text_eq
  obtain ⟨front, name, hleads⟩ := Files.Tree.exists_leads hway hat
  have hshortest := Files.Tree.readText_shortest hleads h.text_eq
  obtain ⟨-, bytes', -, -, hread, hdecode⟩ := Files.Tree.readText_eq_ok hshortest
  have hextension : (Path.rooted path.steps).extension? = path.extension? := by
    rw [Path.extension?, Path.extension?, hleads.shortest.fileName?_eq, hleads.fileName?_eq]
  have hparts : path.parts.drop 1 ≠ [] := by simp [Url.drop_parts_eq hleads]
  have hpath : url.toPath? = some (.rooted path.steps) := Url.toPath?_ofPath? hleads hdrive h.url_eq
  exact {
    scheme := (Url.ofPath?_eq_some h.url_eq hparts).1
    path := hpath
    extension := by rw [Url.extension?_path hleads h.url_eq, hextension]
    notBinary := by
      rw [hextension]
      exact h.notBinary
    read := by rw [hread, Text.decode?_eq_some_iff.mp hdecode]
    shortest := ⟨_, hleads.shortest_steps⟩
    notDisguised := h.notDisguised _ hpath }

/-- A location that is JSON is classified as JSON. -/
theorem classify_of_isJson {location : String} (h : Location.isJson location = true) :
    Location.classify location = some .json := by
  have hextension : Location.extension? location = some "json" := beq_iff_eq.mp h
  simp [Location.classify, hextension]

/-- The extensions that fix a format but for that of documents are those of executables. -/
theorem executable_of_classify {location : String} (hjson : Location.isJson location = false)
    (h : Location.classify location = some format) : format = .script ∨ format = .module := by
  have hextension : Location.extension? location ≠ some "json" := by
    simpa [Location.isJson] using hjson
  unfold Location.classify at h
  split at h
  · rename_i hdocument
    exact absurd hdocument hextension
  · exact Or.inl (Option.some.inj h).symm
  · exact Or.inl (Option.some.inj h).symm
  · exact Or.inr (Option.some.inj h).symm
  · exact Or.inr (Option.some.inj h).symm
  · cases h

/-- A text file and the format that the packages tell of its URL, whatever is known of them. -/
structure Formatted (s : Session) (url : Url) (q : Path) (text : String)
    (format : ModuleFormat) : Prop extends Named s url q text where
  told : ∀ packages : Cache, packages.Sound s.files →
    (Resolve.Search.inferredFormat s url packages).1 = .ok format

/-- The format that was settled once is told in the end. -/
theorem Named.formatted (h : Named s url q text) (hsound : packages.Sound s.files)
    (hsettled : Settled s url format packages) : Formatted s url q text format where
  toNamed := h
  told packages' hsound' := by
    have hsame : (Resolve.Search.inferredFormat s url packages').1 =
        (Resolve.Search.inferredFormat s url packages).1 := by
      rw [h.toTellable.inferredFormat_eq, h.toTellable.inferredFormat_eq]
      cases Location.classify url.path with
      | some known => rfl
      | none =>
        obtain ⟨ps, hshortest⟩ := h.shortest
        exact hsound'.packageType_shortest hsound hshortest
    rw [hsame, hsettled]

namespace Formatted

/-- The format that the extension fixes, if it fixes one. -/
theorem eq_of_classify (h : Formatted s url q text format) {known : ModuleFormat}
    (hclass : Location.classify url.path = some known) : known = format := by
  have htold := h.told {} (Cache.sound_empty _)
  rw [h.toTellable.inferredFormat_eq, hclass] at htold
  exact Except.ok.inj htold

/-- The type of the package around the file, if the extension fixes no format. -/
theorem packageType_eq (h : Formatted s url q text format)
    (hclass : Location.classify url.path = none) (hsound : packages.Sound s.files) :
    (packages.packageType s.files q).1 = .ok format := by
  have htold := h.told packages hsound
  rw [h.toTellable.inferredFormat_eq, hclass] at htold
  exact htold

/-- A file that is JSON by its URL has the format of JSON. -/
theorem format_json (h : Formatted s url q text format) (hjson : Location.isJson url.path = true) :
    format = .json :=
  (h.eq_of_classify (classify_of_isJson hjson)).symm

/-- What is no document is an executable. -/
theorem format_executable (h : Formatted s url q text format)
    (hjson : Location.isJson url.path = false) : format = .script ∨ format = .module := by
  cases hclass : Location.classify url.path with
  | some known =>
    obtain rfl := h.eq_of_classify hclass
    exact executable_of_classify hjson hclass
  | none =>
    have hsound : Cache.Sound s.files {} := Cache.sound_empty _
    exact hsound.packageType_executable (h.packageType_eq hclass hsound)

/-- The syntax of an executable changes nothing about its format. -/
theorem decideFormat_eq (h : Formatted s url q text format)
    (hjson : Location.isJson url.path = false) :
    decideFormat url (some format) text = some format := by
  rcases h.format_executable hjson with rfl | rfl
  · rfl
  cases hambiguous : Location.isAmbiguousScript url.path with
  | false => rw [decideFormat, hambiguous, Bool.and_false, if_neg Bool.false_ne_true]
  | true =>
    have hextension : Location.extension? url.path = some "js" := beq_iff_eq.mp hambiguous
    have hq : q.extension? = some "js" := by
      rw [h.extension] at hextension
      obtain ⟨extension, hq, hencoded⟩ := Option.map_eq_some_iff.mp hextension
      rw [hq, Url.encodeName_injective (hencoded.trans (show "js" = Url.encodeName "js" by decide))]
    have hclass : Location.classify url.path = none := by simp [Location.classify, hextension]
    have hpackage := h.packageType_eq hclass (Cache.sound_empty _)
    have hsyntax : Grammar.usesModuleSyntax text = true := by
      rw [← Bool.not_eq_false]
      exact fun hplain => h.notDisguised ⟨hq, hpackage, hplain⟩
    rw [decideFormat, hambiguous, hsyntax]
    rfl

/-- Asking for the format before reading learns of the packages at most. -/
theorem run_formatBeforeReading (h : Formatted s url q text format) {st : State σ}
    (hst : st.packages.Sound s.files) : ∃ known, formatBeforeReading s url st =
      (.ok (finalFormat url format), st.knowing known) := by
  have hfile : ¬ (url.scheme != "file") = true := by simp [h.scheme]
  unfold formatBeforeReading finalFormat
  rw [if_neg hfile]
  split
  · exact ⟨st.packages, rfl⟩
  · cases hclass : Location.classify url.path with
    | some known =>
      obtain rfl := h.eq_of_classify hclass
      exact ⟨st.packages, rfl⟩
    | none =>
      rw [h.path]
      dsimp only
      rw [run_askPackages, h.packageType_eq hclass hst]
      exact ⟨_, rfl⟩

/-- The host reads the file and keeps the format. -/
theorem run_hostLoad (h : Formatted s url q text format) (c : Context) (hc : c.format = some format)
    (st : State σ) : Host.load s url (hostContext url c) st = (.ok (.ofText format text), st) := by
  have hcontext : (hostContext url c).format = some format := by
    unfold hostContext
    split <;> exact hc
  have hnode : ¬ (url.scheme == "node") = true := by simp [h.scheme]
  have hfile : (url.scheme == "file") = true := by simp [h.scheme]
  rw [Host.load, if_neg hnode, if_pos hfile, h.path]
  dsimp only
  rw [Host.loadFile, h.read]
  dsimp only
  rw [hcontext]
  rfl

/-- Preparing what the host loaded is preparing its text, in the format that the URL tells. -/
theorem preparedLoaded_eq (h : Formatted s url q text format) :
    preparedLoaded setup url (.ofText format text) =
      (preparedSource setup url text (finalFormat url format)).map
        (Prod.map (.ofText (finalFormat url format)) id) := by
  have hdecode : Text.decode? (Text.utf8 text.toList) = some text :=
    Text.decode?_eq_some_iff.mpr rfl
  have htranspiles : (some format == some .json || Location.isSource url.path) =
      (Location.isJson url.path || Location.isSource url.path) := by
    cases hjson : Location.isJson url.path with
    | true => rw [h.format_json hjson]; rfl
    | false => rcases h.format_executable hjson with rfl | rfl <;> rfl
  rw [preparedLoaded, Loaded.ofText]
  dsimp only
  rw [hdecode]
  dsimp only
  rw [htranspiles, preparedSource, finalFormat]
  cases htranspiled : Location.isJson url.path || Location.isSource url.path with
  | true =>
    simp only [madeOf]
    cases transpiled setup url text <;> rfl
  | false =>
    have hjson : Location.isJson url.path = false := (Bool.or_eq_false_iff.mp htranspiled).1
    rw [if_neg Bool.false_ne_true, if_neg Bool.false_ne_true, h.decideFormat_eq hjson]
    rfl

/-- What comes of the two steps is what preparing the text gives. -/
theorem run_inTwoSteps (h : Formatted setup.session url q text format) {st : State σ}
    (hst : st.packages.Sound setup.session.files) : ∃ known, inTwoSteps setup text url st =
      conclude url ((preparedSource setup url text (finalFormat url format)).map
        (Prod.map (Prod.mk (finalFormat url format)) id))
        ((st.announced url).knowing known) := by
  obtain ⟨known, hformat⟩ := h.run_formatBeforeReading hst
  refine ⟨known, ?_⟩
  rw [inTwoSteps, Run.run_bind, hformat]
  dsimp only
  rw [Run.run_bind, run_prepareSource]
  cases preparedSource setup url text (finalFormat url format) <;> rfl

end Formatted

/-- What is known of the packages is left alone by a conclusion and has no part in it. -/
theorem conclude_knowing {α β : Type} (outcome : Except Fault (α × Option Made)) (f : α → β)
    (st : State σ) (known : Cache) : conclude url (outcome.map (Prod.map f id)) st =
      ((conclude url outcome (st.knowing known)).1.map f,
        (conclude url outcome (st.knowing known)).2.knowing st.packages) := by
  rcases outcome with fault | ⟨a, made?⟩
  · rfl
  · unfold conclude Except.map
    dsimp only [Prod.map, id_eq]
    cases mapOf? url made? <;> rfl

/-- A text file is loaded alike in one step, with the format that resolving it decided, and in two.
What is known of the packages may differ between resolving and loading. -/
theorem loadsAlike_resolved (h : TextFile setup.session path url text)
    (hdrive : Url.endsInDrive path = false) {specifier : String} {rc : Resolve.Context}
    {before after : Resolve.State τ} {format? : Option ModuleFormat}
    (hbefore : before.packages.Sound setup.session.files)
    (hresolve : Resolve.Search.resolve setup.session (Resolve.Host.resolve setup.session) specifier
      rc before = (.ok ⟨url, format?⟩, after))
    (c : Context) {st : State σ} (hst : st.packages.Sound setup.session.files) :
    LoadsAlike setup text url { c with format := format? } st := by
  have hnamed := h.named hdrive
  obtain ⟨format, rfl, hsettled⟩ := Resolve.Search.settled_of_resolve hnamed.toTellable hresolve
  have hafter : after.packages.Sound setup.session.files := by
    have hkeeps := (Resolve.Search.agrees_resolve setup.session specifier rc).keeps before hbefore
    rwa [hresolve] at hkeeps
  have hformatted : Formatted setup.session url _ text format := hnamed.formatted hafter hsettled
  obtain ⟨known, htwo⟩ := hformatted.run_inTwoSteps hst
  rw [LoadsAlike, run_load_of_ok (hformatted.run_hostLoad _ rfl _),
    hformatted.preparedLoaded_eq, htwo]
  have houtcome (final : ModuleFormat) (outcome : Except Fault (String × Option Made)) :
      outcome.map (Prod.map (Loaded.ofText final) id) =
        (outcome.map (Prod.map (Prod.mk final) id)).map
          (Prod.map (fun made => Loaded.ofText made.1 made.2) id) := by
    cases outcome <;> rfl
  rw [houtcome]
  exact conclude_knowing _ _ _ known

/-- A session at the root of a tree, without projects. -/
def setupOf (entries : List (List String × Files.Entry)) : Setup :=
  { session := { rootSession with files := ⟨entries⟩ } }

/-- A file of some text. -/
def fileOf (text : String) : Files.Entry := .file (Text.utf8 text.toList)

/-- The manifest of a package of modules. -/
def moduleManifest : Files.Entry := fileOf "\x7b\x22type\x22:\x22module\x22\x7d"

/-- A package of modules with an executable. -/
def modulePackage : Setup :=
  setupOf [(["package.json"], moduleManifest), (["a.js"], fileOf "export\x7b\x7d")]

/-- The executable in a package of modules is a text file. -/
theorem textFile_modulePackage :
    TextFile modulePackage.session ⟨"/a.js"⟩ (rootFile "a.js") "export\x7b\x7d" where
  url_eq := by decide +kernel
  text_eq := by decide +kernel
  notBinary := by decide +kernel
  notDisguised _ _ h := by
    have hsyntax : Grammar.usesModuleSyntax "export\x7b\x7d" = true := by decide +kernel
    rw [h.plain] at hsyntax
    cases hsyntax

/-- An executable in a package of modules is loaded in one step as in two. -/
theorem loadsAlike_resolved_modulePackage :
    let before : Resolve.State Unit := { host := () }
    let st : State Unit := { host := () }
    (TextFile modulePackage.session ⟨"/a.js"⟩ (rootFile "a.js") "export\x7b\x7d" ∧
      Url.endsInDrive ⟨"/a.js"⟩ = false ∧
      before.packages.Sound modulePackage.session.files ∧
      (∃ after, Resolve.Search.resolve modulePackage.session
        (Resolve.Host.resolve modulePackage.session) "./a.js" {} before =
          (.ok ⟨rootFile "a.js", some .module⟩, after)) ∧
      st.packages.Sound modulePackage.session.files) ∧
    LoadsAlike modulePackage "export\x7b\x7d" (rootFile "a.js") { format := some .module } st := by
  intro before st
  have hdrive : Url.endsInDrive ⟨"/a.js"⟩ = false := by decide +kernel
  have hsound : Cache.Sound modulePackage.session.files {} := Cache.sound_empty _
  have hresolve : (Resolve.Search.resolve modulePackage.session
      (Resolve.Host.resolve modulePackage.session) "./a.js" {} before).1 =
        .ok ⟨rootFile "a.js", some .module⟩ := by
    decide +kernel
  obtain ⟨after, hafter⟩ := Run.exists_after hresolve
  exact ⟨⟨textFile_modulePackage, hdrive, hsound, ⟨after, hafter⟩, hsound⟩,
    loadsAlike_resolved textFile_modulePackage hdrive hsound hafter {} hsound⟩

/-- Loading is not alike where one way gives something else than the other. -/
theorem not_loadsAlike {c : Context} {st : State σ} {result : Except Fault Loaded}
    {made : Except Fault (ModuleFormat × String)}
    (hload : (load setup (Host.load setup.session) url c st).1 = result)
    (hsteps : (inTwoSteps setup text url st).1 = made)
    (hne : result ≠ made.map fun made => .ofText made.1 made.2) :
    ¬ LoadsAlike setup text url c st := by
  intro h
  have hresult := congrArg Prod.fst h
  rw [hload, hsteps] at hresult
  exact hne hresult

/-- A file whose name ends like a drive. -/
def driveLike : Setup := setupOf [(["abc:"], fileOf "0")]

/-- A file whose name ends like a drive is a text file. -/
theorem textFile_driveLike : TextFile driveLike.session ⟨"/abc:"⟩ (rootFile "abc:") "0" where
  url_eq := by decide +kernel
  text_eq := by decide +kernel
  notBinary := by decide +kernel
  notDisguised q hq h := by
    have hpath : (rootFile "abc:").toPath? = some ⟨"/abc:/"⟩ := by decide +kernel
    obtain rfl := Option.some.inj (hpath.symm.trans hq)
    exact absurd h.extension (by decide +kernel)

/-- A file, and a package of modules beside it. -/
def packageBeside : Setup :=
  setupOf [(["x"], .directory), (["x", "package.json"], moduleManifest), (["a"], fileOf "0")]

/-- The URL of the file by way of the package. -/
def urlThroughPackage : Url :=
  { scheme := "file", authority := some {}, location := .segments ["x", "..", "a"] }

/-- A file that is reached by way of a package is a text file. -/
theorem textFile_packageBeside :
    TextFile packageBeside.session ⟨"/x/../a"⟩ urlThroughPackage "0" where
  url_eq := by decide +kernel
  text_eq := by decide +kernel
  notBinary := by decide +kernel
  notDisguised q hq h := by
    have hpath : urlThroughPackage.toPath? = some ⟨"/x/../a"⟩ := by decide +kernel
    obtain rfl := Option.some.inj (hpath.symm.trans hq)
    exact absurd h.extension (by decide +kernel)

/-- A file is not loaded alike if its path ends like a drive, which the URL names otherwise, or if
the format is that of another spelling of its URL. -/
theorem not_forall_loadsAlike :
    (¬ ∀ (setup : Setup) (path : Path) (url : Url) (text specifier : String) (rc : Resolve.Context)
      (before after : Resolve.State Unit) (format? : Option ModuleFormat) (c : Context)
      (st : State Unit), TextFile setup.session path url text →
      before.packages.Sound setup.session.files →
      Resolve.Search.resolve setup.session (Resolve.Host.resolve setup.session) specifier rc
        before = (.ok ⟨url, format?⟩, after) →
      st.packages.Sound setup.session.files →
      LoadsAlike setup text url { c with format := format? } st) ∧
    ¬ ∀ (setup : Setup) (path : Path) (url : Url) (text : String) (rc : Resolve.Context)
      (before after : Resolve.State Unit) (target : Resolve.Target) (c : Context)
      (st : State Unit), TextFile setup.session path url text → Url.endsInDrive path = false →
      before.packages.Sound setup.session.files →
      Resolve.Search.resolve setup.session (Resolve.Host.resolve setup.session) url.text rc
        before = (.ok target, after) →
      st.packages.Sound setup.session.files →
      LoadsAlike setup text url { c with format := target.format } st := by
  let before : Resolve.State Unit := { host := () }
  let st : State Unit := { host := () }
  constructor
  · intro hall
    have hresolve : (Resolve.Search.resolve driveLike.session
        (Resolve.Host.resolve driveLike.session) "file:/abc:" {} before).1 =
          .ok ⟨rootFile "abc:", some .script⟩ := by
      decide +kernel
    have hload : (load driveLike (Host.load driveLike.session) (rootFile "abc:")
        { format := some .script } st).1 = .error (.read ⟨"/abc:/"⟩ .notDirectory) := by
      decide +kernel
    have hsteps : (inTwoSteps driveLike "0" (rootFile "abc:") st).1 =
        .ok (.script, "0") := by
      decide +kernel
    obtain ⟨after, hafter⟩ := Run.exists_after hresolve
    refine not_loadsAlike hload hsteps nofun ?_
    exact hall driveLike _ _ _ _ {} before after _ {} st textFile_driveLike
      (Cache.sound_empty _) hafter (Cache.sound_empty _)
  · intro hall
    have hdrive : Url.endsInDrive ⟨"/x/../a"⟩ = false := by decide +kernel
    have hresolve : (Resolve.Search.resolve packageBeside.session
        (Resolve.Host.resolve packageBeside.session) urlThroughPackage.text {} before).1 =
          .ok ⟨rootFile "a", some .script⟩ := by
      decide +kernel
    have hload : (load packageBeside (Host.load packageBeside.session) urlThroughPackage
        { format := some .script } st).1 = .ok (.ofText .script "0") := by
      decide +kernel
    have hsteps : (inTwoSteps packageBeside "0" urlThroughPackage st).1 =
        .ok (.module, "0") := by
      decide +kernel
    obtain ⟨after, hafter⟩ := Run.exists_after hresolve
    refine not_loadsAlike hload hsteps (by decide +kernel) ?_
    exact hall packageBeside _ _ _ {} before after ⟨rootFile "a", some .script⟩ {} st
      textFile_packageBeside hdrive (Cache.sound_empty _) hafter (Cache.sound_empty _)

end ScriptModules.Load

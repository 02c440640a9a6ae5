import ScriptModules.Load.Host
import ScriptModules.Proofs.Resolve.Candidates
import ScriptModules.Proofs.Url.Extensions

/-!
# Decisions by extension

Whether a module is a source, a document or an executable of a fixed format is told by the location
of the module in one place and by its file in another. The two decide alike exactly when the URL
shows the extension of the file.
-/

namespace ScriptModules.Load

open ScriptModules.Url (IsFileExtension Writes)

/-- Both hosts give a file a format by its extension alone. -/
structure TableGives (s : Session) (p : Path) (format : ModuleFormat) : Prop where
  resolving : ∀ σ : Type, (Resolve.Host.formatOf s p : Resolve.Step σ _) = pure (some format)
  loading : ∀ σ : Type, (Host.formatOf s p : Step σ _) = pure (some format)

variable {s : Session} {p : Path} {e : String} {format : ModuleFormat}

/-- The extensions whose format is fixed in the table and in the classification of locations. -/
def fixedFormats : List (String × ModuleFormat) :=
  [("mjs", .module), ("cjs", .script), ("json", .json)]

/-- The table gives the fixed format of an extension to every file that has it. -/
theorem tableGives_of_mem (h : (e, format) ∈ fixedFormats) (hp : p.extension? = some e) :
    TableGives s p format := by
  simp only [fixedFormats, List.mem_cons, Prod.mk.injEq, List.not_mem_nil, or_false] at h
  rcases h with ⟨rfl, rfl⟩ | ⟨rfl, rfl⟩ | ⟨rfl, rfl⟩ <;>
    exact ⟨fun σ => by simp only [Resolve.Host.formatOf, hp],
      fun σ => by simp only [Host.formatOf, hp]⟩

/-- No package declares that its files are documents. -/
theorem packageType_ne_json (t : Files.Tree) (p : Path) :
    (Package.Cache.packageType t {} p).1 ≠ .ok .json := by
  rw [((Package.Cache.sound_empty t).packageType_eq p).1]
  rcases (Package.Cache.nearest t {} (Package.Cache.packageDir p)).1 with f | _ | ⟨dir, value⟩
  · exact fun h => by cases h
  · exact fun h => by cases h
  · intro h
    have hjson : Package.Cache.declaredFormat value = .json := Except.ok.inj h
    unfold Package.Cache.declaredFormat at hjson
    split at hjson <;> cases hjson

/-- The table tells what is JSON by the extension alone. -/
theorem tableGives_json_iff : TableGives s p .json ↔ p.extension? = some "json" := by
  refine ⟨fun h => ?_, tableGives_of_mem (by decide)⟩
  have hgives := congrArg Prod.fst (congrFun (h.resolving Unit) ⟨{}, ()⟩)
  rw [Resolve.run_pure] at hgives
  by_cases hjs : p.extension? = some "js"
  · rw [Resolve.formatOf_js hjs, Resolve.run_map, Resolve.run_askPackages] at hgives
    have hnot := packageType_ne_json s.files p
    rcases hrun : (Package.Cache.packageType s.files {} p).1 with f | format
    · simp [hrun, Except.mapError] at hgives
    · simp only [hrun, Except.mapError] at hgives
      obtain rfl := Option.some.inj (Except.ok.inj hgives)
      exact absurd hrun hnot
  · obtain ⟨e?, he⟩ : ∃ e?, p.extension? = e? := ⟨_, rfl⟩
    simp only [Resolve.Host.formatOf, he] at hgives
    split at hgives
    case h_3 => exact he
    case h_5 => exact absurd he hjs
    all_goals cases hgives

/-- The extensions of sources, which always have to be transformed. -/
def sourceExtensions : List String := ["ts", "cts", "mts", "tsx", "jsx"]

/-- The extensions whose sources have types, and what they are read as. -/
def typedExtensions : List (String × Grammar.Dialect) :=
  [("ts", .typed), ("cts", .typed), ("mts", .typed), ("tsx", .typedMarkup)]

/-- The extensions of sources are extensions of files. -/
theorem isFileExtension_of_mem_sourceExtensions (h : e ∈ sourceExtensions) : IsFileExtension e := by
  simp only [sourceExtensions, List.mem_cons, List.not_mem_nil, or_false] at h
  rcases h with rfl | rfl | rfl | rfl | rfl <;>
    exact ⟨by decide, List.all_eq_true.mp (by decide)⟩

/-- The extensions of a fixed format are extensions of files. -/
theorem isFileExtension_of_mem_fixedFormats (h : (e, format) ∈ fixedFormats) :
    IsFileExtension e := by
  simp only [fixedFormats, List.mem_cons, Prod.mk.injEq, List.not_mem_nil, or_false] at h
  rcases h with ⟨rfl, -⟩ | ⟨rfl, -⟩ | ⟨rfl, -⟩ <;>
    exact ⟨by decide, List.all_eq_true.mp (by decide)⟩

variable {u : Url} {names : List String}

/-- A location is that of a source if its last segment is spelled with the extension of one. -/
theorem isSource_path_iff (h : u.Formed) (hlocation : u.location = .segments names) :
    Location.isSource u.path = true ↔
      ∃ e ∈ sourceExtensions, Writes u e ∧ u.lastSegment ≠ "" := by
  have hendings : Location.sourceEndings = sourceExtensions.map ("." ++ ·) := by decide
  rw [Location.isSource, h.bare_path_eq hlocation, hendings, List.any_map, List.any_eq_true]
  refine exists_congr fun e => and_congr_right fun he => ?_
  rw [← Url.suffix_path_iff hlocation (isFileExtension_of_mem_sourceExtensions he)]
  simp [List.isSuffixOf_iff_suffix]

/-- A name that is nothing but an extension has none. -/
theorem extension?_of_bare (he : IsFileExtension e) (h : p.fileName? = some ("." ++ e)) :
    p.extension? = none := by
  have hname : "." ++ e = String.ofList ('.' :: e.toList) := by
    rw [← String.toList_inj]
    simp
  rw [Path.extension?, h, Option.bind_some, hname]
  exact Path.extensionOfName?_dot (he.not_mem (by decide))

/-- A URL shows an extension of sources if it tells by its last segment that the file has it. -/
structure ShowsSource (u : Url) (p : Path) (e : String) : Prop where
  spelled : p.extension? = some e → Writes u e ∧ u.lastSegment ≠ ""
  bare : Writes u e → p.fileName? = some ("." ++ e) → u.lastSegment = ""

/-- A file whose URL is spelled with an extension has it, or is named by it alone. -/
theorem extension?_of_writes (hp : u.toPath? = some p) (he : IsFileExtension e)
    (hwrites : Writes u e) :
    p.extension? = some e ∨ p.fileName? = some ("." ++ e) ∧ p.extension? = none := by
  by_cases hbare : p.fileName? = some ("." ++ e)
  · exact Or.inr ⟨hbare, extension?_of_bare he hbare⟩
  · exact Or.inl ((hwrites.extension?_iff he hp).mpr hbare)

/-- Locations of sources are those of files with the extension of one exactly when the URL shows
all these extensions. -/
theorem isSource_path_agrees_iff (h : u.Formed) (hp : u.toPath? = some p) :
    (Location.isSource u.path = true ↔ ∃ e ∈ sourceExtensions, p.extension? = some e) ↔
      ∀ e ∈ sourceExtensions, ShowsSource u p e := by
  obtain ⟨names, hlocation, -⟩ := Url.toPath?_eq_some hp
  rw [isSource_path_iff h hlocation]
  constructor
  · intro hagrees e he
    refine ⟨fun hextension => ?_, fun hwrites hbare => Classical.not_not.mp fun hlast => ?_⟩
    · obtain ⟨e', he', hwrites, hlast⟩ := hagrees.mpr ⟨e, he, hextension⟩
      have hending := isFileExtension_of_mem_sourceExtensions he'
      rcases extension?_of_writes hp hending hwrites with h' | ⟨-, h'⟩
      · rw [hextension] at h'
        rw [Option.some.inj h']
        exact ⟨hwrites, hlast⟩
      · rw [hextension] at h'
        cases h'
    · obtain ⟨e', -, hextension⟩ := hagrees.mp ⟨e, he, hwrites, hlast⟩
      rw [extension?_of_bare (isFileExtension_of_mem_sourceExtensions he) hbare] at hextension
      cases hextension
  · intro hshows
    refine exists_congr fun e => and_congr_right fun he => ⟨?_, (hshows e he).spelled⟩
    rintro ⟨hwrites, hlast⟩
    have hending := isFileExtension_of_mem_sourceExtensions he
    rcases extension?_of_writes hp hending hwrites with h' | ⟨hbare, -⟩
    · exact h'
    · exact absurd ((hshows e he).bare hwrites hbare) hlast

/-- All decisions about a URL are the same as those about its file. -/
structure DecidesAlike (s : Session) (u : Url) (p : Path) : Prop where
  json : Location.isJson u.path = true ↔ TableGives s p .json
  fixed : ∀ e format, (e, format) ∈ fixedFormats →
    Location.extension? u.path = some e ∨ p.extension? = some e →
      TableGives s p format ∧ Location.classify u.path = some format
  source : Location.isSource u.path = true ↔ ∃ e ∈ sourceExtensions, p.extension? = some e
  dialect : ∀ e dialect, (e, dialect) ∈ typedExtensions → Location.isSource u.path = true →
    Writes u e → Grammar.Dialect.ofPath p = dialect

/-- A URL shows an extension of a fixed format if it tells that the file has it. -/
structure ShowsFixed (u : Url) (p : Path) (e : String) : Prop where
  spelled : p.extension? = some e → Writes u e
  bare : Writes u e → p.fileName? = some ("." ++ e) → u.lastName = "." ++ e

/-- A URL shows all extensions that decide something. -/
structure Shows (u : Url) (p : Path) : Prop where
  fixed : ∀ e format, (e, format) ∈ fixedFormats → ShowsFixed u p e
  source : ∀ e ∈ sourceExtensions, ShowsSource u p e

/-- A URL shows an extension of a fixed format just when its location is told to have the extension
that the file has. -/
theorem showsFixed_iff (h : u.Formed) (hp : u.toPath? = some p) (he : IsFileExtension e) :
    ShowsFixed u p e ↔ (Location.extension? u.path = some e ↔ p.extension? = some e) := by
  rw [h.extension?_agrees_iff hp he]
  exact ⟨fun hshows => ⟨hshows.spelled, hshows.bare⟩, fun hshows => ⟨hshows.1, hshows.2⟩⟩

/-- A location is told to be JSON by its extension. -/
theorem isJson_iff (location : String) :
    Location.isJson location = true ↔ Location.extension? location = some "json" := by
  rw [Location.isJson, beq_iff_eq]

/-- A location with an extension of a fixed format is classified by it. -/
theorem classify_of_mem (h : (e, format) ∈ fixedFormats) {location : String}
    (hlocation : Location.extension? location = some e) :
    Location.classify location = some format := by
  simp only [fixedFormats, List.mem_cons, Prod.mk.injEq, List.not_mem_nil, or_false] at h
  rcases h with ⟨rfl, rfl⟩ | ⟨rfl, rfl⟩ | ⟨rfl, rfl⟩ <;> simp only [Location.classify, hlocation]

/-- What a location is classified by is an extension. -/
theorem exists_extension?_of_classify {location : String} {format : ModuleFormat}
    (h : Location.classify location = some format) :
    ∃ e, IsFileExtension e ∧ Location.extension? location = some e := by
  unfold Location.classify at h
  split at h
  case h_6 => cases h
  all_goals
    rename_i htold
    exact ⟨_, ⟨by decide, List.all_eq_true.mp (by decide)⟩, htold⟩

/-- A file with an extension of typed sources is read in their dialect. -/
theorem dialect_of_mem {dialect : Grammar.Dialect} (h : (e, dialect) ∈ typedExtensions)
    (hp : p.extension? = some e) : Grammar.Dialect.ofPath p = dialect := by
  simp only [typedExtensions, List.mem_cons, Prod.mk.injEq, List.not_mem_nil, or_false] at h
  rcases h with ⟨rfl, rfl⟩ | ⟨rfl, rfl⟩ | ⟨rfl, rfl⟩ | ⟨rfl, rfl⟩ <;>
    simp only [Grammar.Dialect.ofPath, hp]

/-- The extensions of typed sources are extensions of sources. -/
theorem mem_sourceExtensions {dialect : Grammar.Dialect} (h : (e, dialect) ∈ typedExtensions) :
    e ∈ sourceExtensions := by
  have hkeys : typedExtensions.map Prod.fst ⊆ sourceExtensions := by decide
  exact hkeys (List.mem_map.mpr ⟨_, h, rfl⟩)

/-- The table gives nothing for a file without an extension. -/
theorem TableGives.extension?_ne_none (h : TableGives s p format) : p.extension? ≠ none := by
  intro hnone
  have hgives := congrArg Prod.fst (congrFun (h.resolving Unit) ⟨{}, ()⟩)
  simp only [Resolve.Host.formatOf, hnone] at hgives
  cases hgives

/-- Where everything is decided alike, the URL shows the extension of the file. -/
theorem DecidesAlike.shows (h : u.Formed) (hp : u.toPath? = some p)
    (hdecides : DecidesAlike s u p) : Shows u p := by
  obtain ⟨names, hlocation, -⟩ := Url.toPath?_eq_some hp
  have hspelled {e : String} (he : IsFileExtension e)
      (htold : Location.extension? u.path = some e) :=
    extension?_of_writes hp he ((h.extension?_path_iff hlocation he).mp htold).1
  refine ⟨fun e format he => ?_, (isSource_path_agrees_iff h hp).mp hdecides.source⟩
  have hending := isFileExtension_of_mem_fixedFormats he
  rw [showsFixed_iff h hp hending]
  constructor
  · intro htold
    have hgives := (hdecides.fixed e format he (Or.inl htold)).1
    exact (hspelled hending htold).resolve_right fun hbare => hgives.extension?_ne_none hbare.2
  · intro hextension
    obtain ⟨e', he', htold⟩ :=
      exists_extension?_of_classify (hdecides.fixed e format he (Or.inr hextension)).2
    rcases hspelled he' htold with hextension' | ⟨-, hnone⟩
    · rw [hextension] at hextension'
      rw [htold, Option.some.inj hextension']
    · rw [hextension] at hnone
      cases hnone

/-- Where the URL shows the extension of the file, everything is decided alike. -/
theorem Shows.decidesAlike (h : u.Formed) (hp : u.toPath? = some p) (hshows : Shows u p) :
    DecidesAlike s u p := by
  obtain ⟨names, hlocation, -⟩ := Url.toPath?_eq_some hp
  have hfixed {e : String} {format : ModuleFormat} (he : (e, format) ∈ fixedFormats) :=
    (showsFixed_iff h hp (isFileExtension_of_mem_fixedFormats he)).mp (hshows.fixed e format he)
  have hsource := (isSource_path_agrees_iff h hp).mpr hshows.source
  refine ⟨?_, fun e format he htold => ?_, hsource, fun e dialect he hisSource hwrites => ?_⟩
  · rw [isJson_iff, tableGives_json_iff]
    have hjson : ("json", ModuleFormat.json) ∈ fixedFormats := by decide
    exact hfixed hjson
  · have hextension : p.extension? = some e := htold.elim (hfixed he).mp id
    exact ⟨tableGives_of_mem he hextension, classify_of_mem he ((hfixed he).mpr hextension)⟩
  · obtain ⟨-, -, -, hlast⟩ := (isSource_path_iff h hlocation).mp hisSource
    have hmem := mem_sourceExtensions he
    refine dialect_of_mem he ?_
    exact (extension?_of_writes hp (isFileExtension_of_mem_sourceExtensions hmem)
      hwrites).resolve_right fun hbare => hlast ((hshows.source e hmem).bare hwrites hbare.1)

/-- What is decided by the location of a module is what is decided by its file exactly when the URL
shows the extension of the file. -/
theorem decidesAlike_iff_shows (h : u.Formed) (hp : u.toPath? = some p) :
    DecidesAlike s u p ↔ Shows u p :=
  ⟨DecidesAlike.shows h hp, Shows.decidesAlike h hp⟩

/-- A URL may be encoded in its name as long as the extension is written out. -/
theorem decidesAlike_iff_shows_encoded :
    ∃ u, Url.parse "file:///w/d%61ta.mts" = .ok u ∧ u.toPath? = some ⟨"/w/data.mts"⟩ ∧
      DecidesAlike (.withoutProjects {} { cwd := ⟨"/"⟩ }) u ⟨"/w/data.mts"⟩ := by
  let u : Url := ⟨"file", some {}, .segments ["w", "d%61ta.mts"], none, none⟩
  have hparse : Url.parse "file:///w/d%61ta.mts" = .ok u := by decide +kernel
  have hpath : u.toPath? = some ⟨"/w/data.mts"⟩ := by decide +kernel
  refine ⟨u, hparse, hpath,
    (decidesAlike_iff_shows (Url.formed_of_parse hparse) hpath).mpr ⟨?_, ?_⟩⟩
  · intro e format he
    simp only [fixedFormats, List.mem_cons, Prod.mk.injEq, List.not_mem_nil, or_false] at he
    rcases he with ⟨rfl, -⟩ | ⟨rfl, -⟩ | ⟨rfl, -⟩ <;>
      exact ⟨by decide +kernel, by decide +kernel⟩
  · intro e he
    simp only [sourceExtensions, List.mem_cons, List.not_mem_nil, or_false] at he
    rcases he with rfl | rfl | rfl | rfl | rfl <;> exact ⟨by decide +kernel, by decide +kernel⟩

/-- A location that is nothing but an extension counts as a source, but its file has none. -/
theorem not_forall_decidesAlike :
    ¬ ∀ (s : Session) (text : String) (u : Url) (p : Path), Url.parse text = .ok u →
      u.scheme = "file" → u.toPath? = some p → DecidesAlike s u p := by
  intro h
  have hdecides := h (.withoutProjects {} { cwd := ⟨"/"⟩ }) "file:///.ts"
    ⟨"file", some {}, .segments [".ts"], none, none⟩ ⟨"/.ts"⟩ (by decide +kernel) rfl
    (by decide +kernel)
  exact absurd (hdecides.source.mp (by decide +kernel)) (by decide +kernel)

end ScriptModules.Load

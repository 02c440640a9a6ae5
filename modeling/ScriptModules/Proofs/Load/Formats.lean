import ScriptModules.Proofs.Load.Outcome

/-!
# How a module is run that needs no transform

A module that is neither a typed source nor loaded as a document is run by a format that depends on
how it was loaded, its URL and its syntax. A script stays a script; an executable of no fixed format
is a script unless it has the syntax of a module; everything else is what it was loaded as. Only
then are its imports checked, so its bytes change just where the result is a module with dynamic
imports.
-/

namespace ScriptModules

namespace DynamicImport

open Grammar (Dialect)

/-- Every offset gets one check, also where the text is over. -/
theorem length_insertChecks (offset : Nat) (ends : List Nat) (cs : List Char) :
    (insertChecks offset ends cs).length = cs.length + ends.length * check.toList.length := by
  induction cs generalizing offset ends with
  | nil => simp [insertChecks, List.length_flatMap, List.map_const']
  | cons c rest ih =>
    have hparts := congrArg List.length (List.takeWhile_append_dropWhile (p := (· ≤ offset))
      (l := ends))
    rw [List.length_append] at hparts
    rw [insertChecks, List.length_append, List.length_cons, ih, ← hparts, Nat.add_mul]
    simp [List.length_flatMap, List.map_const']
    omega

/-- There is something to write just where the text names an import and has a call of it. -/
theorem isSome_rewrite? (code : String) (path : Path) (dialect : Dialect) :
    (rewrite? code path dialect).isSome ↔
      Text.holds "import".toList code.toList ∧ ends dialect code ≠ [] := by
  unfold rewrite?
  split
  case isTrue hno => simp_all
  case isFalse hholds =>
    split
    · simp_all
    · simp_all

/-- What is written makes a text longer. -/
theorem length_lt_of_rewrite? {code : String} {path : Path} {dialect : Dialect} {t : Transformed}
    (h : rewrite? code path dialect = some t) : code.toList.length < t.code.toList.length := by
  unfold rewrite? at h
  split at h
  · cases h
  · split at h
    · cases h
    · rename_i hfound
      obtain rfl := Option.some.inj h
      have hends : 0 < (ends dialect code).length := List.length_pos_iff.mpr hfound
      have hcheck : 0 < check.toList.length := by decide +kernel
      have := Nat.mul_pos hends hcheck
      rw [String.toList_ofList, length_insertChecks]
      omega

end DynamicImport

namespace Load

variable {σ : Type} {setup : Setup} {s : Session} {url : Url} {loaded : Loaded} {source : String}

/-- A comment for the map makes no code shorter. -/
theorem length_le_codeFor (s : Session) (url : Url) (p : Product) :
    p.code.toList.length ≤ (p.codeFor s url).toList.length := by
  unfold Product.codeFor
  split
  · exact Nat.le_refl _
  · split
    · unfold withMapComment
      split <;> simp only [String.toList_append, List.length_append] <;> omega
    · exact Nat.le_refl _

/-- The code of a module is another than its source just when the module has dynamic imports. -/
theorem codeOf_checked?_ne_iff : codeOf s url source (checked? url source) ≠ source ↔
    Text.holds "import".toList source.toList ∧
      DynamicImport.ends (.ofPath (locationOf url)) source ≠ [] := by
  rw [← DynamicImport.isSome_rewrite? source (locationOf url), checked?]
  cases hrewrite : DynamicImport.rewrite? source (locationOf url) (.ofPath (locationOf url)) with
  | none => simp [codeOf]
  | some t =>
    have hlt := DynamicImport.length_lt_of_rewrite? hrewrite
    have hle := length_le_codeFor s url (.ofTransformed t)
    refine iff_of_true (fun heq => ?_) rfl
    have hcode : (Product.ofTransformed t).codeFor s url = source := heq
    rw [hcode] at hle
    exact absurd hlt (Nat.not_lt.mpr hle)

/-- How a module with a given source is run: what was loaded, and what comes of it. -/
structure Runs (url : Url) (source : String) (loaded result : Loaded) : Prop where
  /-- A script stays as it is, whatever is in it. -/
  script : loaded.format = some .script → result = loaded
  /-- An executable of no fixed format is a script when it has no syntax of a module. -/
  plain : Location.isAmbiguousScript url.path = true → Grammar.usesModuleSyntax source = false →
    result = { format := some .script, source := loaded.source }
  /-- Otherwise it is what it was loaded as, and a module where that was left open. -/
  module : Location.isAmbiguousScript url.path = true → Grammar.usesModuleSyntax source = true →
    result.format = loaded.format.or (some .module)
  /-- Everything else is what it was loaded as. -/
  other : Location.isAmbiguousScript url.path = false → result.format = loaded.format
  /-- The bytes change just for modules that have dynamic imports. -/
  bytes : result.source ≠ loaded.source ↔ result.format = some .module ∧
    Text.holds "import".toList source.toList ∧
      DynamicImport.ends (.ofPath (locationOf url)) source ≠ []

/-- A module that is neither a typed source nor a document is prepared by its format. -/
theorem preparedLoaded_executable (setup : Setup)
    (hsource : loaded.source = some (Text.utf8 source.toList))
    (hurl : Location.isSource url.path = false) (hformat : loaded.format ≠ some .json) :
    let format := decideFormat url loaded.format source
    let made? := if format = some .module then checked? url source else none
    preparedLoaded setup url loaded = .ok
      (⟨format, some (Text.utf8 (codeOf setup.session url source made?).toList)⟩, made?) := by
  have hdecoded : Text.decode? (Text.utf8 source.toList) = some source :=
    Text.decode?_eq_some_iff.mpr rfl
  have htranspiles : (loaded.format == some .json || Location.isSource url.path) = false := by
    simp [hurl, hformat]
  rw [preparedLoaded, hsource]
  dsimp only
  rw [hdecoded, htranspiles]
  simp [madeOf, Except.map]

/-- What was told to be a script stays one. -/
theorem decideFormat_of_script (url : Url) (source : String) :
    decideFormat url (some .script) source = some .script := rfl

/-- Only an executable that depends on its package is looked into. -/
theorem decideFormat_of_not_ambiguous (h : Location.isAmbiguousScript url.path = false)
    (format : Option ModuleFormat) (source : String) :
    decideFormat url format source = format := by
  rw [decideFormat, h, Bool.and_false]
  rfl

/-- An executable without the syntax of modules is a script, whatever was told. -/
theorem decideFormat_of_plain (h : Location.isAmbiguousScript url.path = true)
    (hplain : Grammar.usesModuleSyntax source = false) (format : Option ModuleFormat) :
    decideFormat url format source = some .script := by
  by_cases hformat : format = some .script
  · rw [hformat, decideFormat_of_script]
  · rw [decideFormat, h, hplain]
    simp [hformat]

/-- An executable with the syntax of modules has the format that was told, or else is a module. -/
theorem decideFormat_of_module (h : Location.isAmbiguousScript url.path = true)
    (hmodule : Grammar.usesModuleSyntax source = true) (format : Option ModuleFormat) :
    decideFormat url format source = format.or (some .module) := by
  by_cases hformat : format = some .script
  · rw [hformat, decideFormat_of_script, Option.some_or]
  · rw [decideFormat, h, hmodule]
    simp [hformat]

/-- Loading a module that is neither a typed source nor a document succeeds, and the module runs by
what it was loaded as, its URL and its syntax. -/
theorem run_load_executable {next : Loader σ} {c : Context} {st after : State σ}
    (hnext : next url (hostContext url c) (st.announced url) = (.ok loaded, after))
    (hsource : loaded.source = some (Text.utf8 source.toList))
    (hurl : Location.isSource url.path = false) (hformat : loaded.format ≠ some .json) :
    ∃ result final, load setup next url c st = (.ok result, final) ∧
      Runs url source loaded result := by
  obtain ⟨format, hdecided⟩ : ∃ format, format = decideFormat url loaded.format source := ⟨_, rfl⟩
  -- Code that is not run as a module is the source, byte for byte.
  have hbytes (made? : Option Made) :
      some (Text.utf8 (codeOf setup.session url source made?).toList) ≠ loaded.source ↔
        codeOf setup.session url source made? ≠ source := by
    rw [hsource]
    exact ⟨fun h heq => h (by rw [heq]),
      fun h heq => h (String.toList_inj.mp (Text.utf8_injective (Option.some.inj heq)))⟩
  have hprepared := preparedLoaded_executable setup hsource hurl hformat
  rw [← hdecided] at hprepared
  have hleft (h : format ≠ some .module) :
      some (Text.utf8 (codeOf setup.session url source
        (if format = some .module then checked? url source else none)).toList) = loaded.source := by
    rw [if_neg h, hsource]
    rfl
  refine ⟨_, _, by rw [run_load_of_ok hnext, hprepared]; rfl, ?_⟩
  constructor
  case script =>
    intro hscript
    rw [hscript, decideFormat_of_script] at hdecided
    rw [hleft (by simp [hdecided]), hdecided, ← hscript]
  case plain =>
    intro hambiguous hplain
    rw [decideFormat_of_plain hambiguous hplain] at hdecided
    rw [hleft (by simp [hdecided]), hdecided]
  case module =>
    intro hambiguous hmodule
    rw [decideFormat_of_module hambiguous hmodule] at hdecided
    exact hdecided
  case other =>
    intro hother
    rw [decideFormat_of_not_ambiguous hother] at hdecided
    exact hdecided
  case bytes =>
    by_cases hmodule : format = some .module
    · rw [if_pos hmodule, hbytes, codeOf_checked?_ne_iff, and_iff_right hmodule]
    · exact iff_of_false (fun h => h (hleft hmodule)) fun h => hmodule h.1

/-- An executable that its package calls a module, and that imports another. -/
def importing : Loaded := ⟨some .module, some (Text.utf8 "export\x7b\x7d;import(a)".toList)⟩

/-- An executable of a package of modules that imports something runs as a module. -/
theorem run_load_executable_importing :
    let st : State Unit := { host := () }
    let setup : Setup := { session := rootSession }
    let url := rootFile "a.js"
    importing.source = some (Text.utf8 "export\x7b\x7d;import(a)".toList) ∧
    Location.isSource url.path = false ∧ importing.format ≠ some .json ∧
    ∃ result final, load setup (.always importing) url {} st = (.ok result, final) ∧
      Runs url "export\x7b\x7d;import(a)" importing result :=
  ⟨rfl, by decide, by decide,
    run_load_executable (run_always _ _ _ _) rfl (by decide) (by decide)⟩

end Load

end ScriptModules

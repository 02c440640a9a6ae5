import ScriptModules.Load.Host
import ScriptModules.Load.OneStep
import ScriptModules.Load.TwoStep
import ScriptModules.Proofs.Agreement
import ScriptModules.Proofs.Except
import ScriptModules.Proofs.Text.WellFormed

/-!
# What comes of loading a module

Loading a module and preparing its source end alike: something is returned, and the map of what was
made of the source, if anything was, is registered. What is made depends on the source and the
settings alone, so a call is told apart into what comes of it and how that changes the registry.
-/

namespace ScriptModules

namespace SourceMap.Registry

/-- A map that is registered for a URL is found there. -/
theorem get?_set_self (url : String) (m : SourceMap) (r : Registry) :
    (r.set url m).get? url = some m := by
  simp [set, get?]

/-- Registering a map leaves those of other URLs. -/
theorem get?_set_of_ne {url other : String} (h : other ≠ url) (m : SourceMap) (r : Registry) :
    (r.set url m).get? other = r.get? other := by
  have hfilter : (r.entries.filter (·.1 != url)).lookup other = r.entries.lookup other := by
    induction r.entries with
    | nil => rfl
    | cons entry rest ih =>
      obtain ⟨name, map⟩ := entry
      by_cases hname : name = url
      · subst hname
        rw [List.filter_cons_of_neg (by simp), ih, List.lookup_cons,
          beq_eq_false_iff_ne.mpr h]
      · rw [List.filter_cons_of_pos (by simpa using hname), List.lookup_cons, List.lookup_cons, ih]
  rw [get?, set, List.lookup_cons, beq_eq_false_iff_ne.mpr h]
  exact hfilter

end SourceMap.Registry

namespace Load

variable {σ : Type} {setup : Setup}

section

variable {α : Type} {s : Session} {url : Url}

/-- How a source is changed. -/
inductive Transform where
  /-- A JSON document becomes a module. -/
  | document
  /-- A typed source is transformed, by stripping its types unless the host has another way. -/
  | types
  /-- The dynamic imports of a module are checked. -/
  | imports
  deriving DecidableEq, Repr

/-- What was made of a source, and how. -/
structure Made where
  transform : Transform
  source : String
  product : Product
  deriving DecidableEq, Repr

/-- The map of what was made, as it is registered. -/
def Product.mapFor? (url : Url) (p : Product) : Option SourceMap :=
  p.map?.map fun map => { map with file := some url.text }

/-- The code of what was made, as the host gets it. -/
def Product.codeFor (s : Session) (url : Url) (p : Product) : String :=
  match p.mapFor? url with
  | none => p.code
  | some map => if s.capabilities.inlineSourceMaps then withMapComment p.code map else p.code

/-- What transpiling makes of a source. -/
def transpiled (setup : Setup) (url : Url) (source : String) : Except Fault Made :=
  let made : Except TransformFault Made :=
    if Location.isJson url.path then
      (JsonModule.transform source (locationOf url)).map fun t =>
        ⟨.document, source, .ofTransformed t⟩
    else
      (setup.transformer source (locationOf url) (optionsFor setup.session url)).map fun p =>
        ⟨.types, source, p⟩
  made.mapError .transform

/-- What checking the dynamic imports makes of a module that has any. -/
def checked? (url : Url) (source : String) : Option Made :=
  (DynamicImport.rewrite? source (locationOf url) (.ofPath (locationOf url))).map fun t =>
    ⟨.imports, source, .ofTransformed t⟩

/-- What is made of a source that is transpiled, or run as a module, or neither. -/
def madeOf (setup : Setup) (url : Url) (transpiles runs : Bool) (source : String) :
    Except Fault (Option Made) :=
  if transpiles then (transpiled setup url source).map some
  else .ok (if runs then checked? url source else none)

/-- The code that a host gets for a source: that of what was made of it, or else the source. -/
def codeOf (s : Session) (url : Url) (source : String) (made? : Option Made) : String :=
  (made?.map (·.product.codeFor s url)).getD source

/-- What comes of preparing what the host loaded, with what was made of its source. -/
def preparedLoaded (setup : Setup) (url : Url) (loaded : Loaded) :
    Except Fault (Loaded × Option Made) :=
  match loaded.source with
  | none => .ok (loaded, none)
  | some bytes =>
    match Text.decode? bytes with
    | none => .error (.invalidUtf8 url)
    | some source =>
      let transpiles := loaded.format == some .json || Location.isSource url.path
      let format := if transpiles then some .module else decideFormat url loaded.format source
      (madeOf setup url transpiles (format == some .module) source).map fun made? =>
        (⟨format, some (Text.utf8 (codeOf setup.session url source made?).toList)⟩, made?)

/-- What comes of preparing a source, with what was made of it. -/
def preparedSource (setup : Setup) (url : Url) (source : String) (format : ModuleFormat) :
    Except Fault (String × Option Made) :=
  let transpiles := Location.isJson url.path || Location.isSource url.path
  (madeOf setup url transpiles (format == .module) source).map fun made? =>
    (codeOf setup.session url source made?, made?)

/-- What was made of some source of a URL, by transpiling it or checking its imports. -/
def IsMade (setup : Setup) (url : Url) (made : Made) : Prop :=
  ∃ source, transpiled setup url source = .ok made ∨ checked? url source = some made

/-- What is made of a source that is transpiled or run is made by a transform. -/
theorem isMade_of_madeOf {transpiles runs : Bool} {source : String} {made : Made}
    (h : madeOf setup url transpiles runs source = .ok (some made)) : IsMade setup url made := by
  refine ⟨source, ?_⟩
  unfold madeOf at h
  split at h
  · obtain ⟨_, hmade, hsome⟩ := exists_of_map_eq_ok h
    exact Or.inl (Option.some.inj hsome ▸ hmade)
  · split at h
    · exact Or.inr (Except.ok.inj h)
    · cases h

/-- What is made of a loaded source is made by a transform. -/
theorem isMade_of_preparedLoaded {loaded result : Loaded} {made : Made}
    (h : preparedLoaded setup url loaded = .ok (result, some made)) : IsMade setup url made := by
  unfold preparedLoaded at h
  split at h
  · cases h
  · split at h
    · cases h
    · obtain ⟨made?, hmade, hresult⟩ := exists_of_map_eq_ok h
      obtain rfl : made? = some made := congrArg Prod.snd hresult
      exact isMade_of_madeOf hmade

/-- What is made of a source that was read is made by a transform. -/
theorem isMade_of_preparedSource {source code : String} {format : ModuleFormat} {made : Made}
    (h : preparedSource setup url source format = .ok (code, some made)) :
    IsMade setup url made := by
  unfold preparedSource at h
  obtain ⟨made?, hmade, hresult⟩ := exists_of_map_eq_ok h
  obtain rfl : made? = some made := congrArg Prod.snd hresult
  exact isMade_of_madeOf hmade

/-- The map that a call registers: that of what it made, if there is one. -/
def mapOf? (url : Url) (made? : Option Made) : Option SourceMap :=
  made?.bind (·.product.mapFor? url)

/-- Register the map of a URL, if there is one. -/
def State.register (url : Url) (map? : Option SourceMap) (st : State σ) : State σ :=
  match map? with
  | none => st
  | some map => { st with maps := st.maps.set url.text map }

/-- Give what came of a source, and register the map of what was made of it. -/
def conclude (url : Url) (outcome : Except Fault (α × Option Made)) : Step σ α := fun st =>
  match outcome with
  | .error fault => (.error fault, st)
  | .ok (a, made?) => (.ok a, st.register url (mapOf? url made?))

/-- Asking for packages changes nothing but what is known of them, and fails as the packages do. -/
theorem run_askPackages (ask : Package.Cache → Except Project.Fault α × Package.Cache)
    (st : State σ) : askPackages ask st =
      ((ask st.packages).1.mapError .config, { st with packages := (ask st.packages).2 }) := by
  rcases h : ask st.packages with ⟨_ | _, packages⟩ <;>
    simp only [askPackages, Run.run_bind, Run.run_get, Run.run_set, h] <;> rfl

/-- Attaching a map registers it, if there is one, and gives the code. -/
theorem run_attachMap (p : Product) (st : State σ) :
    attachMap s url p st = (.ok (p.codeFor s url), st.register url (p.mapFor? url)) := by
  obtain ⟨code, map?⟩ := p
  cases map? <;> rfl

/-- Transpiling a source, checking its imports or leaving it alone ends in what is made of it. -/
theorem make_eq (setup : Setup) (url : Url) (transpiles runs : Bool) (source : String) :
    (if transpiles then transpile setup url source
      else if runs then checkImports setup url source else pure source : Step σ String) =
    conclude url ((madeOf setup url transpiles runs source).map fun made? =>
      (codeOf setup.session url source made?, made?)) := by
  funext st
  unfold madeOf
  split
  · unfold transpile transpiled
    dsimp only
    split
    · cases JsonModule.transform source (locationOf url) with
      | error cause => rfl
      | ok t => exact run_attachMap _ _
    · cases setup.transformer source (locationOf url) (optionsFor setup.session url) with
      | error cause => rfl
      | ok p => exact run_attachMap _ _
  · split
    · unfold checkImports checked?
      cases DynamicImport.rewrite? source (locationOf url) (.ofPath (locationOf url)) with
      | none => rfl
      | some t => exact run_attachMap _ _
    · rfl

/-- Going on with what a conclusion gives. -/
theorem conclude_bind_pure {β : Type} (outcome : Except Fault (α × Option Made)) (f : α → β) :
    (conclude url outcome >>= fun a => pure (f a) : Step σ β) =
      conclude url (outcome.map (Prod.map f id)) := by
  funext st
  rw [Run.run_bind]
  cases outcome <;> rfl

/-- A loaded source is prepared and the map of what was made of it is registered. -/
theorem prepare_eq (loaded : Loaded) : (prepare setup url loaded : Step σ Loaded) =
    conclude url (preparedLoaded setup url loaded) := by
  unfold prepare preparedLoaded
  cases hsource : loaded.source with
  | none => rfl
  | some bytes =>
    dsimp only
    cases hdecoded : Text.decode? bytes with
    | none => rfl
    | some source =>
      have hbytes : bytes = Text.utf8 source.toList := Text.decode?_eq_some_iff.mp hdecoded
      have hconclude (transpiles runs : Bool) (format : Option ModuleFormat) :
          conclude url ((madeOf setup url transpiles runs source).map fun made? =>
            (⟨format, some (Text.utf8 (codeOf setup.session url source made?).toList)⟩, made?)) =
          ((if transpiles then transpile setup url source
            else if runs then checkImports setup url source else pure source) >>= fun code =>
              pure ⟨format, some (Text.utf8 code.toList)⟩ : Step σ Loaded) := by
        rw [make_eq, conclude_bind_pure]
        cases madeOf setup url transpiles runs source <;> rfl
      dsimp only
      rw [hconclude]
      split
      · rfl
      · split
        · rfl
        -- A source that is left alone is given back as its bytes, not as its text.
        · rw [hbytes]
          rfl

/-- The state after the module of a URL was announced. -/
def State.announced (url : Url) (st : State σ) : State σ :=
  { st with sent := st.sent ++ [.dependency url.text] }

/-- A module is announced by its message. -/
theorem run_announce (st : State σ) : announce url st = (.ok ⟨⟩, st.announced url) := rfl

/-- Loading a module announces it, asks the host, and prepares what the host gives. -/
theorem run_load (next : Loader σ) (c : Context) (st : State σ) : load setup next url c st =
    match next url (hostContext url c) (st.announced url) with
      | (.ok loaded, after) => conclude url (preparedLoaded setup url loaded) after
      | (.error fault, after) => (.error fault, after) := by
  rw [load, Run.run_bind, run_announce]
  dsimp only
  rw [Run.run_bind]
  split <;> simp only [prepare_eq, *]

/-- A load of what the host gave gives what comes of preparing it. -/
theorem run_load_of_ok {next : Loader σ} {c : Context} {st after : State σ} {loaded : Loaded}
    (h : next url (hostContext url c) (st.announced url) = (.ok loaded, after)) :
    load setup next url c st = conclude url (preparedLoaded setup url loaded) after := by
  rw [run_load, h]

/-- Preparing a source announces its module first. -/
theorem run_prepareSource (source : String) (format : ModuleFormat) (st : State σ) :
    prepareSource setup source url format st =
      conclude url (preparedSource setup url source format) (st.announced url) := by
  rw [prepareSource, Run.run_bind, run_announce, make_eq]
  rfl

/-- What was loaded has no source, or its source is the bytes of some text. -/
def Loaded.IsText (loaded : Loaded) : Prop :=
  ∀ bytes, loaded.source = some bytes → ∃ text : String, bytes = Text.utf8 text.toList

/-- A module that needs no preparation: its URL names no source and no executable that may be a
module or a script, and it was loaded neither as a document nor as a module. -/
structure Unprepared (url : Url) (loaded : Loaded) : Prop where
  notSource : Location.isSource url.path = false
  notAmbiguous : Location.isAmbiguousScript url.path = false
  notDocument : loaded.format ≠ some .json
  notModule : loaded.format ≠ some .module

/-- Bytes that are no text are refused, whatever they were loaded as. -/
theorem preparedLoaded_of_not_isText {loaded : Loaded} (h : ¬ loaded.IsText) :
    preparedLoaded setup url loaded = .error (.invalidUtf8 url) := by
  obtain ⟨format, source⟩ := loaded
  cases source with
  | none => exact absurd (fun _ hnone => nomatch hnone) h
  | some bytes =>
    have hdecoded : Text.decode? bytes = none := by
      rw [Option.eq_none_iff_forall_ne_some]
      intro text htext
      refine h fun _ hbytes => ⟨text, ?_⟩
      rw [← Option.some.inj hbytes]
      exact Text.decode?_eq_some_iff.mp htext
    rw [preparedLoaded]
    dsimp only
    rw [hdecoded]

/-- A text that needs no preparation stays as it is. -/
theorem Unprepared.preparedLoaded {loaded : Loaded} (h : Unprepared url loaded)
    (htext : loaded.IsText) : Load.preparedLoaded setup url loaded = .ok (loaded, none) := by
  obtain ⟨format, source⟩ := loaded
  cases source with
  | none => rfl
  | some bytes =>
    obtain ⟨text, hbytes⟩ := htext bytes rfl
    have hdecoded : Text.decode? bytes = some text := Text.decode?_eq_some_iff.mpr hbytes
    have hformat : decideFormat url format text = format := by
      rw [decideFormat, h.notAmbiguous, Bool.and_false]
      rfl
    rw [Load.preparedLoaded]
    dsimp only
    rw [hdecoded]
    simp [madeOf, codeOf, hformat, Except.map, h.notSource, h.notDocument, h.notModule, hbytes]

/-- A module that needs no preparation is passed on as the host gave it just when it is text. Other
bytes are refused. -/
theorem run_load_unprepared {next : Loader σ} {c : Context} {st after : State σ} {loaded : Loaded}
    (hnext : next url (hostContext url c) (st.announced url) = (.ok loaded, after))
    (h : Unprepared url loaded) :
    (load setup next url c st = (.ok loaded, after) ↔ loaded.IsText) ∧
      (load setup next url c st = (.error (.invalidUtf8 url), after) ↔ ¬ loaded.IsText) := by
  rw [run_load_of_ok hnext]
  by_cases htext : loaded.IsText
  · rw [h.preparedLoaded htext]
    exact ⟨iff_of_true rfl htext, iff_of_false (fun heq => nomatch congrArg Prod.fst heq)
      (not_not_intro htext)⟩
  · rw [preparedLoaded_of_not_isText htext]
    exact ⟨iff_of_false (fun heq => nomatch congrArg Prod.fst heq) htext, iff_of_true rfl htext⟩

/-- A host that gives one thing for every URL. -/
def Loader.always (loaded : Loaded) : Loader σ := fun _ _ => return loaded

/-- A host that gives one thing always gives it and leaves the state. -/
theorem run_always (loaded : Loaded) (url : Url) (c : Context) (st : State σ) :
    Loader.always loaded url c st = (.ok loaded, st) := rfl

/-- The URL of a file at the root. -/
def rootFile (name : String) : Url :=
  { scheme := "file", authority := some {}, location := .segments [name] }

/-- A session at the root of an empty tree, without projects. -/
def rootSession : Session := ⟨⟨"/"⟩, {}, {}, {}⟩

/-- The start of a binary module, and a byte that no text has. -/
def binary : Loaded := ⟨some .wasm, some [0x00, 0x61, 0x73, 0x6D, 0xFF]⟩

/-- Nothing is to be prepared in a binary module. -/
theorem unprepared_binary : Unprepared (rootFile "a.wasm") binary := by
  constructor <;> decide

/-- A binary module is given as it is if it is text, and refused if it is not. -/
theorem run_load_unprepared_binary :
    let st : State Unit := { host := () }
    let after := st.announced (rootFile "a.wasm")
    let run := load { session := rootSession } (.always binary) (rootFile "a.wasm") {} st
    Unprepared (rootFile "a.wasm") binary ∧ (run = (.ok binary, after) ↔ binary.IsText) ∧
      (run = (.error (.invalidUtf8 (rootFile "a.wasm")), after) ↔ ¬ binary.IsText) :=
  ⟨unprepared_binary, run_load_unprepared (run_always _ _ _ _) unprepared_binary⟩

/-- A binary module is refused though nothing is to be prepared in it. -/
theorem not_forall_run_load_unprepared :
    ¬ ∀ (setup : Setup) (next : Loader Unit) (url : Url) (c : Context) (st after : State Unit)
      (loaded : Loaded), next url (hostContext url c) (st.announced url) = (.ok loaded, after) →
      Unprepared url loaded → load setup next url c st = (.ok loaded, after) := by
  intro h
  have hload := h { session := rootSession } (.always binary) (rootFile "a.wasm") {} { host := () }
    _ binary (run_always _ _ _ _) unprepared_binary
  have hrefused : preparedLoaded { session := rootSession } (rootFile "a.wasm") binary =
      .error (.invalidUtf8 (rootFile "a.wasm")) := rfl
  rw [run_load_of_ok (run_always _ _ _ _), hrefused] at hload
  cases congrArg Prod.fst hload

end

/-- A call to load a module, or to prepare a source that was already read. -/
inductive Call where
  | load (url : Url) (c : Context)
  | prepare (source : String) (url : Url) (format : ModuleFormat)
  deriving Repr

/-- What a call gives. -/
inductive Returned where
  | loaded (l : Loaded)
  | source (code : String)
  deriving DecidableEq, Repr

namespace Call

/-- The URL of the module that is asked for. -/
def url : Call → Url
  | load url _ => url
  | prepare _ url _ => url

/-- Answer a call. -/
def run (setup : Setup) (next : Loader σ) : Call → Step σ Returned
  | load url c => return .loaded (← Load.load setup next url c)
  | prepare source url format => return .source (← prepareSource setup source url format)

/-- What comes of a call, with what was made of the source. The registry is not changed here. -/
def outcome (setup : Setup) (next : Loader σ) (call : Call) (st : State σ) :
    Except Fault (Returned × Option Made) × State σ :=
  match call with
  | load url c =>
    match next url (hostContext url c) (st.announced url) with
    | (.ok loaded, after) =>
      ((preparedLoaded setup url loaded).map (Prod.map .loaded id), after)
    | (.error fault, after) => (.error fault, after)
  | prepare source url format =>
    ((preparedSource setup url source format).map (Prod.map .source id), st.announced url)

/-- What is made in a call is made by a transform. -/
theorem isMade_of_outcome {next : Loader σ} {call : Call} {st : State σ} {returned : Returned}
    {made : Made} (h : (call.outcome setup next st).1 = .ok (returned, some made)) :
    IsMade setup call.url made := by
  cases call with
  | load url c =>
    rw [outcome] at h
    split at h
    · dsimp only at h
      obtain ⟨⟨_, made?⟩, hloaded, hresult⟩ := exists_of_map_eq_ok h
      obtain rfl : made? = some made := congrArg Prod.snd hresult
      exact isMade_of_preparedLoaded hloaded
    · cases h
  | prepare source url format =>
    rw [outcome] at h
    dsimp only at h
    obtain ⟨⟨_, made?⟩, hsource, hresult⟩ := exists_of_map_eq_ok h
    obtain rfl : made? = some made := congrArg Prod.snd hresult
    exact isMade_of_preparedSource hsource

/-- A call gives what comes of it, and registers the map of what was made. -/
theorem run_eq (next : Loader σ) (call : Call) (st : State σ) : call.run setup next st =
    conclude call.url (call.outcome setup next st).1 (call.outcome setup next st).2 := by
  cases call with
  | load url c =>
    rw [run, Run.run_bind, run_load, outcome]
    rcases next url (hostContext url c) (st.announced url) with ⟨fault | loaded, after⟩
    · rfl
    · cases hprepared : preparedLoaded setup url loaded <;> simp only [hprepared] <;> rfl
  | prepare source url format =>
    rw [run, Run.run_bind, run_prepareSource, outcome]
    cases preparedSource setup url source format <;> rfl

end Call

end Load

end ScriptModules

import ScriptModules.Proofs.Load.Outcome
import ScriptModules.Proofs.Project.Owners
import ScriptModules.Proofs.Resolve.Agreement
import ScriptModules.Requests

/-!
# What a session remembers changes no answer

Looking up an owner gives the owner, and what is known of packages was read from the files. So a
session answers a request as a fresh one does, whatever it was asked before. The one exception is a
manifest that a fresh session would have to read under a spelling that is too long, and that an
earlier request has read under a shorter one.
-/

namespace ScriptModules

open Package (Cache)
open Project (Owners Registry)

namespace Resolve.Search

variable {s : Session} {c : Context}

/-- Searches that differ in what is known of owners. -/
def ownersApart (s : Session) : Comparison Fault (State Owners) where
  valid st := Owners.Sound s.projects st.host
  below st st' := st.packages = st'.packages
  exempt _ := False

/-- Searches that differ in what is known of owners ask the packages alike. -/
theorem asksAgree_ownersApart (s : Session) : AsksAgree (ownersApart s) s.files := by
  intro α ask _
  refine .of_same (fun st hst => ?_) fun st st' (hpackages : st.packages = st'.packages) => ?_
  · rw [run_askPackages]
    exact hst
  · rw [run_askPackages, run_askPackages, hpackages]
    exact ⟨rfl, rfl⟩

/-- The owner of the importing module maps a name as all projects do. -/
theorem run_mappingProjects (specifier : String) {st : State Owners}
    (h : Owners.Sound s.projects st.host) : ∃ projects owners,
      mappingProjects s specifier c st = (.ok projects, ⟨st.packages, owners⟩) ∧
      Owners.Sound s.projects owners ∧
      mappedUrls { s with projects := projects } specifier c = mappedUrls s specifier c := by
  unfold mappingProjects
  split
  · exact ⟨s.projects, st.host, rfl, h, rfl⟩
  · cases hparent : c.parentPath? with
    | none => exact ⟨s.projects, st.host, rfl, h, rfl⟩
    | some parent =>
      obtain ⟨howner, hsound⟩ := h.lookUp parent
      refine ⟨⟨(s.projects.configFor? parent).toList⟩, _, ?_, hsound, ?_⟩
      · rw [← howner]
        rfl
      · simp only [mappedUrls, mappingConfig?, hparent, Registry.configFor?_owner]

/-- An attempt that looks up the owner agrees with one that has all projects, when what they go on
to does. -/
theorem agrees_attemptOwned {again again' : Again Owners}
    (h : ∀ specifier fallback, Agrees (ownersApart s) (again specifier fallback)
      (again' specifier fallback)) (specifier : String) (fallback : Fallback) :
    Agrees (ownersApart s) (attemptOwned s (Host.resolve s) again specifier c fallback)
      (attempt s (Host.resolve s) again' specifier c fallback) := by
  refine Agrees.bind_left fun st hst => ?_
  obtain ⟨projects, owners, hrun, hsound, hmapped⟩ := run_mappingProjects (c := c)
    (Specifier.withoutNodePrefix s.capabilities specifier) hst
  refine ⟨projects, _, hrun, hsound, fun st' hbelow => hbelow, ?_⟩
  exact (simulation_agrees (asksAgree_ownersApart s) (fun _ hf => hf.elim) projects).attempt rfl
    hmapped.symm (fun u _ => h u .allowed) fun x _ => h x .nested

/-- Looking up owners one by one changes nothing about a search. -/
theorem agrees_resolveOwned (s : Session) (specifier : String) (c : Context) :
    Agrees (ownersApart s) (resolveOwned s (Host.resolve s) specifier c)
      (resolve s (Host.resolve s) specifier c) := by
  have hwithin (depth : Nat) (specifier : String) (fallback : Fallback) :
      Agrees (ownersApart s) (resolveOwnedWithin s (Host.resolve s) c depth specifier fallback)
        (resolveWithin s (Host.resolve s) c depth specifier fallback) := by
    induction depth generalizing specifier fallback with
    | zero => exact .throw _
    | succ depth ih => exact agrees_attemptOwned ih specifier fallback
  rw [resolveOwned, resolve, tryCatch_eq_settle, tryCatch_eq_settle]
  exact (hwithin depthLimit specifier .allowed).settle (fun t => .pure t) (fun f => .throw _)
    fun _ hf => hf.elim

end Resolve.Search

namespace Load

variable {σ : Type} {C : Comparison Fault (State σ)} {setup : Setup} {s : Session} {url : Url}
  {c : Context}

/-- A comparison by what is known of packages and owners, in which questions to the packages
agree. -/
structure ByKnowledge (C : Comparison Fault (State σ)) (t : Files.Tree) : Prop where
  asks : ∀ {α : Type} (ask : Cache → Except Project.Fault α × Cache),
    Agrees (Cache.comparison t) ask ask → Agrees C (askPackages ask) (askPackages ask)
  changes : ∀ g : State σ → State σ, (∀ st, (g st).packages = st.packages) →
    (∀ st, (g st).host = st.host) → Agrees C (modify g) (modify g)

/-- A message is sent alike, whatever is known. -/
theorem agrees_announce (h : ByKnowledge C s.files) (url : Url) :
    Agrees C (announce url) (announce url) :=
  h.changes _ (fun _ => rfl) fun _ => rfl

/-- A map is attached alike, whatever is known. -/
theorem agrees_attachMap (h : ByKnowledge C s.files) (made : Product) :
    Agrees C (attachMap s url made) (attachMap s url made) := by
  unfold attachMap
  split
  · exact .pure _
  · refine Agrees.bind (h.changes _ ?_ ?_) fun _ => .pure _
    all_goals exact fun _ => rfl

/-- A source is prepared alike, whatever is known. -/
theorem agrees_prepare (h : ByKnowledge C setup.session.files) (loaded : Loaded) :
    Agrees C (prepare setup url loaded) (prepare setup url loaded) := by
  have htranspile (code : String) :
      Agrees C (transpile setup url code) (transpile setup url code) := by
    unfold transpile
    dsimp only
    split
    · exact agrees_attachMap h _
    · exact .throw _
  have hcheck (code : String) :
      Agrees C (checkImports setup url code) (checkImports setup url code) := by
    unfold checkImports
    dsimp only
    split
    · exact agrees_attachMap h _
    · exact .pure _
  unfold prepare
  split
  · exact .pure _
  · split
    · exact .throw _
    · split
      · exact (htranspile _).bind fun _ => .pure _
      · dsimp only
        split
        · exact (hcheck _).bind fun _ => .pure _
        · exact .pure _

/-- The format that is told before reading is alike if questions to the packages are. -/
theorem agrees_formatBeforeReading (h : ByKnowledge C s.files) (url : Url) :
    Agrees C (formatBeforeReading s url) (formatBeforeReading s url) := by
  unfold formatBeforeReading
  split
  · exact .pure _
  · split
    · exact .pure _
    · split
      · exact .pure _
      · split
        · exact h.asks _ (Cache.agrees_packageType _)
        · exact .throw _

/-- The loads of the host agree when the questions to the packages do. -/
theorem agrees_hostLoad (h : ByKnowledge C s.files) :
    Agrees C (Host.load s url c) (Host.load s url c) := by
  have hformat (p : Path) : Agrees C (Host.formatOf s p) (Host.formatOf s p) := by
    unfold Host.formatOf
    split
    case h_5 => exact (h.asks _ (Cache.agrees_packageType p)).bind fun _ => .pure _
    all_goals exact .pure _
  unfold Host.load
  split
  · exact .pure _
  · split
    · split
      · unfold Host.loadFile
        split
        · exact .throw _
        · split
          · exact (Agrees.pure _).bind fun _ => .pure _
          · exact (hformat _).bind fun _ => .pure _
      · exact .throw _
    · exact .throw _

/-- A module is loaded alike if questions to the packages are. -/
theorem agrees_load (h : ByKnowledge C setup.session.files) (url : Url) (c : Context) :
    Agrees C (load setup (Host.load setup.session) url c)
      (load setup (Host.load setup.session) url c) :=
  (agrees_announce h url).bind fun _ => (agrees_hostLoad h).bind fun loaded =>
    agrees_prepare h loaded

/-- Loads that start from different caches. -/
def comparison (σ : Type) (t : Files.Tree) : Comparison Fault (State σ) where
  valid st := Cache.Sound t st.packages
  below st st' := Cache.Within st.packages st'.packages
  exempt f := ∃ cause, Cache.Exceeds cause ∧ f = .config cause

/-- Loads that start from different caches are compared by what is known. -/
theorem byKnowledge_comparison (σ : Type) (t : Files.Tree) : ByKnowledge (comparison σ t) t where
  asks ask hask := by
    refine hask.on_part (fun _ => Iff.rfl) (fun _ _ => Iff.rfl)
      (fun cause hcause => ⟨cause, hcause, rfl⟩) fun st => ?_
    rw [run_askPackages]
    exact ⟨rfl, rfl⟩
  changes g hpackages _ := by
    refine .of_same (fun st hst => ?_) fun st st' hbelow => ⟨rfl, ?_⟩
    · change Cache.Sound t (g st).packages
      rwa [hpackages]
    · change Cache.Within (g st).packages (g st').packages
      rwa [hpackages, hpackages]

/-- Loads that differ in what is known of owners. -/
def ownersApart (s : Session) : Comparison Fault (State Owners) where
  valid st := Owners.Sound s.projects st.host
  below st st' := st.packages = st'.packages
  exempt _ := False

/-- Loads that differ in what is known of owners are compared by what is known. -/
theorem byKnowledge_ownersApart (s : Session) : ByKnowledge (ownersApart s) s.files where
  asks ask _ := by
    refine .of_same (fun st hst => ?_) fun st st' (hsame : st.packages = st'.packages) => ?_
    · rw [run_askPackages]
      exact hst
    · rw [run_askPackages, run_askPackages, hsame]
      exact ⟨rfl, rfl⟩
  changes g hpackages hhost := by
    refine .of_same (fun st hst => ?_) fun st st' hbelow => ⟨rfl, ?_⟩
    · change Owners.Sound s.projects (g st).host
      rwa [hhost]
    · change (g st).packages = (g st').packages
      rwa [hpackages, hpackages]

/-- Transpiling asks the projects for nothing but settings, and documents need none. -/
theorem transpile_withProjects {projects : Registry} (code : String)
    (h : Location.isJson url.path = false →
      optionsFor { setup.session with projects := projects } url = optionsFor setup.session url) :
    (transpile { setup with session := { setup.session with projects := projects } } url code :
      Step σ String) = transpile setup url code := by
  unfold transpile
  cases hjson : Location.isJson url.path with
  | true => rfl
  | false =>
    rw [h hjson]
    rfl

/-- Preparing asks the projects for nothing but settings. -/
theorem prepare_withProjects {projects : Registry} {loaded : Loaded}
    (h : needsOptions url loaded = true →
      optionsFor { setup.session with projects := projects } url = optionsFor setup.session url) :
    (prepare { setup with session := { setup.session with projects := projects } } url loaded :
      Step σ Loaded) = prepare setup url loaded := by
  unfold prepare
  cases hsource : loaded.source with
  | none => rfl
  | some bytes =>
    dsimp only
    cases hcode : Text.decode? bytes with
    | none => rfl
    | some code =>
      dsimp only
      split
      · rename_i htyped
        rw [transpile_withProjects code fun hjson => h ?_]
        simpa [needsOptions, hsource, hcode, hjson] using htyped
      · rfl

/-- The owner of a file has its settings as all projects do. -/
theorem run_settingProjects (url : Url) (loaded : Loaded) {st : State Owners}
    (h : Owners.Sound s.projects st.host) : ∃ projects owners,
      settingProjects s url loaded st = (.ok projects, { st with host := owners }) ∧
      Owners.Sound s.projects owners ∧ (needsOptions url loaded = true →
        optionsFor { s with projects := projects } url = optionsFor s url) := by
  unfold settingProjects
  split
  · exact ⟨s.projects, st.host, rfl, h, fun _ => rfl⟩
  · cases hpath : url.toPath? with
    | none => exact ⟨s.projects, st.host, rfl, h, fun _ => rfl⟩
    | some path =>
      obtain ⟨howner, hsound⟩ := h.lookUp path
      refine ⟨⟨(s.projects.configFor? path).toList⟩, _, ?_, hsound, fun _ => ?_⟩
      · rw [← howner]
        rfl
      · simp only [optionsFor, hpath, Registry.configFor?_owner]

/-- Looking up owners one by one changes nothing about a load. -/
theorem agrees_loadOwned (setup : Setup) (url : Url) (c : Context) :
    Agrees (ownersApart setup.session) (loadOwned setup (Host.load setup.session) url c)
      (load setup (Host.load setup.session) url c) := by
  have h := byKnowledge_ownersApart setup.session
  refine (agrees_announce h url).bind fun _ => (agrees_hostLoad h).bind fun loaded => ?_
  refine Agrees.bind_left fun st hst => ?_
  obtain ⟨projects, owners, hrun, hsound, hoptions⟩ := run_settingProjects url loaded hst
  refine ⟨projects, _, hrun, hsound, fun st' hbelow => hbelow, ?_⟩
  rw [prepare_withProjects hoptions]
  exact agrees_prepare h loaded

end Load

variable {setup : Load.Setup}

/-- A memory of what stands in the files and who owns what. -/
structure Memory.Sound (setup : Load.Setup) (m : Memory) : Prop where
  packages : Cache.Sound setup.session.files m.packages
  owners : Owners.Sound setup.session.projects m.owners

/-- A fresh memory is sound. -/
theorem Memory.sound_fresh (setup : Load.Setup) : Memory.Sound setup {} :=
  ⟨Cache.sound_empty _, Owners.sound_empty _⟩

/-- The fault of a configuration or a manifest that an answer reports. -/
def Answer.configFault? : Answer → Option Project.Fault
  | .resolve (.error (.config f)) => some f
  | .load (.error (.config f)) => some f
  | .format (.error (.config f)) => some f
  | .packageType (.error f) => some f
  | _ => none

/-- What a session remembers stays sound, and one that remembers more answers the same, unless the
other has to read a manifest under a spelling that is too long. -/
structure Steady (setup : Load.Setup) (r : Request) : Prop where
  keeps : ∀ m, Memory.Sound setup m → Memory.Sound setup (answer setup m r).2
  agrees : ∀ m m', Memory.Sound setup m → Memory.Sound setup m' →
    Cache.Within m.packages m'.packages → (answer setup m' r).1 = (answer setup m r).1 ∨
      ∃ f, Cache.Exceeds f ∧ (answer setup m r).1.configFault? = some f

/-- A request to resolve a specifier is answered by the search with the packages that are known. -/
theorem answer_resolve (m : Memory) (specifier : String) (c : Resolve.Context) :
    answer setup m (.resolve specifier c) =
      let run := Resolve.Search.resolveOwned setup.session (Resolve.Host.resolve setup.session)
        specifier c ⟨m.packages, m.owners⟩
      (.resolve run.1, { m with packages := run.2.packages, owners := run.2.host }) := by
  rw [answer]
  rfl

/-- A request to load a module is answered by the loader with what is known. -/
theorem answer_load (m : Memory) (url : Url) (c : Load.Context) :
    answer setup m (.load url c) =
      let run := Load.loadOwned setup (Load.Host.load setup.session) url c
        ⟨m.packages, m.maps, m.sent, m.owners⟩
      (.load run.1, ⟨run.2.packages, run.2.host, run.2.maps, run.2.sent⟩) := by
  rw [answer]
  rfl

/-- A request for a format is answered by the loader with what is known. -/
theorem answer_format (m : Memory) (url : Url) :
    answer setup m (.format url) =
      let run := Load.formatBeforeReading setup.session url ⟨m.packages, m.maps, m.sent, m.owners⟩
      (.format run.1, ⟨run.2.packages, run.2.host, run.2.maps, run.2.sent⟩) := by
  rw [answer]
  rfl

/-- A request for an owner is answered by the owners that are known. -/
theorem answer_owner (m : Memory) (file : Path) :
    answer setup m (.owner file) =
      (.owner (m.owners.lookUp setup.session.projects file).1,
        { m with owners := (m.owners.lookUp setup.session.projects file).2 }) := by
  rw [answer]

/-- A request for a type is answered by the packages that are known. -/
theorem answer_packageType (m : Memory) (file : Path) :
    answer setup m (.packageType file) =
      (.packageType (m.packages.packageType setup.session.files file).1,
        { m with packages := (m.packages.packageType setup.session.files file).2 }) := by
  rw [answer]

/-- What is remembered has no part in how a specifier is resolved. -/
theorem steady_resolve (specifier : String) (c : Resolve.Context) :
    Steady setup (.resolve specifier c) := by
  have howned := Resolve.Search.agrees_resolveOwned setup.session specifier c
  have hplain := Resolve.Search.agrees_resolve (σ := Owners) setup.session specifier c
  constructor
  · intro m h
    have hpackages := hplain.keeps ⟨m.packages, m.owners⟩ h.packages
    have hsame := (howned.agrees ⟨m.packages, m.owners⟩ ⟨m.packages, m.owners⟩ h.owners h.owners
      rfl).resolve_right fun ⟨_, hf, _⟩ => hf.elim
    rw [answer_resolve]
    exact ⟨(congrArg (Cache.Sound setup.session.files) hsame.2).mpr hpackages,
      howned.keeps ⟨m.packages, m.owners⟩ h.owners⟩
  · intro m m' h h' hwithin
    rw [answer_resolve, answer_resolve]
    rcases howned.through (fun _ hf => hf) hplain ⟨m.packages, m.owners⟩
      ⟨m'.packages, m'.owners⟩ h.owners h'.owners rfl rfl h.packages h'.packages
      hwithin with hresult | ⟨_, ⟨cause, hcause, rfl⟩, hresult⟩
    · exact Or.inl (congrArg Answer.resolve hresult.symm)
    · exact Or.inr ⟨cause, hcause, by dsimp only; rw [hresult]; rfl⟩

/-- What is remembered has no part in what a module is loaded as. -/
theorem steady_load (url : Url) (c : Load.Context) : Steady setup (.load url c) := by
  have howned := Load.agrees_loadOwned setup url c
  have hplain := Load.agrees_load (Load.byKnowledge_comparison Owners setup.session.files) url c
  constructor
  · intro m h
    have hpackages := hplain.keeps ⟨m.packages, m.maps, m.sent, m.owners⟩ h.packages
    have hsame := (howned.agrees ⟨m.packages, m.maps, m.sent, m.owners⟩
      ⟨m.packages, m.maps, m.sent, m.owners⟩ h.owners h.owners rfl).resolve_right
      fun ⟨_, hf, _⟩ => hf.elim
    rw [answer_load]
    exact ⟨(congrArg (Cache.Sound setup.session.files) hsame.2).mpr hpackages,
      howned.keeps ⟨m.packages, m.maps, m.sent, m.owners⟩ h.owners⟩
  · intro m m' h h' hwithin
    rw [answer_load, answer_load]
    rcases howned.through (fun _ hf => hf) hplain ⟨m.packages, m.maps, m.sent, m.owners⟩
      ⟨m'.packages, m'.maps, m'.sent, m'.owners⟩ h.owners h'.owners rfl rfl h.packages
      h'.packages hwithin with hresult | ⟨_, ⟨cause, hcause, rfl⟩, hresult⟩
    · exact Or.inl (congrArg Answer.load hresult.symm)
    · exact Or.inr ⟨cause, hcause, by dsimp only; rw [hresult]; rfl⟩

/-- What is remembered has no part in the format of a module. -/
theorem steady_format (url : Url) : Steady setup (.format url) := by
  have hplain := Load.agrees_formatBeforeReading
    (Load.byKnowledge_comparison Owners setup.session.files) url
  have howners := Load.agrees_formatBeforeReading (Load.byKnowledge_ownersApart setup.session) url
  constructor
  · intro m h
    rw [answer_format]
    exact ⟨hplain.keeps ⟨m.packages, m.maps, m.sent, m.owners⟩ h.packages,
      howners.keeps ⟨m.packages, m.maps, m.sent, m.owners⟩ h.owners⟩
  · intro m m' h h' hwithin
    rw [answer_format, answer_format]
    rcases hplain.agrees ⟨m.packages, m.maps, m.sent, m.owners⟩
      ⟨m'.packages, m'.maps, m'.sent, m'.owners⟩ h.packages h'.packages hwithin with
      ⟨hresult, -⟩ | ⟨_, ⟨cause, hcause, rfl⟩, hresult⟩
    · exact Or.inl (congrArg Answer.format hresult.symm)
    · exact Or.inr ⟨cause, hcause, by dsimp only; rw [hresult]; rfl⟩

/-- What is remembered has no part in who owns a file. -/
theorem steady_owner (file : Path) : Steady setup (.owner file) := by
  constructor
  · intro m h
    rw [answer_owner]
    exact ⟨h.packages, (h.owners.lookUp file).2⟩
  · intro m m' h h' _
    rw [answer_owner, answer_owner]
    exact Or.inl (congrArg Answer.owner
      ((h'.owners.lookUp file).1.trans (h.owners.lookUp file).1.symm))

/-- What is remembered has no part in the type of a file. -/
theorem steady_packageType (file : Path) : Steady setup (.packageType file) := by
  have hplain := Cache.agrees_packageType (t := setup.session.files) file
  constructor
  · intro m h
    rw [answer_packageType]
    exact ⟨hplain.keeps m.packages h.packages, h.owners⟩
  · intro m m' h h' hwithin
    rw [answer_packageType, answer_packageType]
    rcases hplain.agrees m.packages m'.packages h.packages h'.packages hwithin with
      ⟨hresult, -⟩ | ⟨cause, hcause, hresult⟩
    · exact Or.inl (congrArg Answer.packageType hresult.symm)
    · exact Or.inr ⟨cause, hcause, congrArg (Answer.configFault? ∘ Answer.packageType) hresult⟩

/-- Every request is answered steadily. -/
theorem steady (setup : Load.Setup) (r : Request) : Steady setup r := by
  cases r with
  | resolve specifier c => exact steady_resolve specifier c
  | load url c => exact steady_load url c
  | format url => exact steady_format url
  | owner file => exact steady_owner file
  | packageType file => exact steady_packageType file

/-- What a session remembers stays sound over any requests. -/
theorem Memory.Sound.remembered {m : Memory} (h : m.Sound setup) (earlier : List Request) :
    (ScriptModules.remembered setup m earlier).Sound setup := by
  induction earlier generalizing m with
  | nil => exact h
  | cons r rest ih => exact ih ((steady setup r).keeps m h)

/-- After any requests, a session answers the next as a fresh one does, or the fresh one has to read
a manifest under a spelling that is too long. -/
theorem answer_remembered (setup : Load.Setup) (earlier : List Request) (r : Request) :
    (answer setup (remembered setup {} earlier) r).1 = (answer setup {} r).1 ∨
      ∃ p, Files.Tree.TooLong p ∧
        (answer setup {} r).1.configFault? = some (.read p .nameTooLong) := by
  have hfresh := Memory.sound_fresh setup
  have hnothing : Cache.Within {} (remembered setup {} earlier).packages := by
    intro parts hparts
    simp at hparts
  rcases (steady setup r).agrees {} _ hfresh (hfresh.remembered earlier) hnothing with
    hanswer | ⟨_, ⟨p, hp, rfl⟩, hanswer⟩
  · exact Or.inl hanswer
  · exact Or.inr ⟨p, hp, hanswer⟩

/-- The root can be spelled with any number of slashes. -/
theorem parts_slashes (n : Nat) : Path.parts ⟨Path.slashes (n + 1)⟩ = [.root] := by
  have hroot : Path.slashes (n + 1) = "/" ++ Path.slashes n := Path.slashes_succ n
  rw [hroot, Path.parts_append_slashes (by decide)]
  decide

/-- The manifest at a root of many slashes has all of them before its name. -/
theorem text_join_slashes (n : Nat) :
    ((⟨Path.slashes (n + 1)⟩ : Path).join "package.json").text =
      Path.slashes (n + 1) ++ "package.json" := by
  have hne : Path.slashes (n + 1) ≠ "" := by simp [Path.slashes_succ]
  rw [Path.join_name Cache.isName_manifest, if_neg hne, if_pos]
  simp [Path.slashes, List.getLast?_replicate]

/-- The root can be spelled so that no room is left for the name of its manifest. -/
theorem exists_root_tooLong :
    ∃ p : Path, p.parts = [.root] ∧ Files.Tree.TooLong (p.join "package.json") := by
  refine ⟨⟨Path.slashes 4095⟩, parts_slashes 4094, ?_⟩
  rw [Files.Tree.TooLong, text_join_slashes, String.utf8ByteSize_append,
    Path.utf8ByteSize_slashes]
  decide

/-- A session in an empty tree, without projects. -/
def bare : Load.Setup := { session := ⟨⟨"/"⟩, {}, {}, {}⟩ }

/-- The type of the root, under a spelling that leaves no room for the name of a manifest, is told
only where the manifest was looked for under another. -/
theorem not_forall_answer_remembered_eq :
    ¬ ∀ (setup : Load.Setup) (earlier : List Request) (r : Request),
      (answer setup (remembered setup {} earlier) r).1 = (answer setup {} r).1 := by
  intro h
  obtain ⟨p, hroot, hlong⟩ := exists_root_tooLong
  let earlier : List Request := [.packageType ⟨"/"⟩]
  have hsound : Cache.Sound bare.session.files (remembered bare {} earlier).packages :=
    ((Memory.sound_fresh bare).remembered earlier).packages
  have hknown : (remembered bare {} earlier).packages.manifests.lookup
      (p.join "package.json").parts = some none := by
    rw [Path.parts_join Cache.isName_manifest, hroot]
    rfl
  have hlater : (answer bare (remembered bare {} earlier) (.packageType p)).1 =
      .packageType (.ok .script) := by
    rw [answer_packageType]
    refine congrArg Answer.packageType ((hsound.packageType_root hroot).trans ?_)
    rw [Cache.reading_of_known hknown]
    rfl
  obtain ⟨cause, hfound⟩ := Cache.exists_found_eq_of_tooLong (t := bare.session.files) hlong
  have hfresh : (answer bare {} (.packageType p)).1 =
      .packageType (.error (.read (p.join "package.json") cause)) := by
    rw [answer_packageType]
    refine congrArg Answer.packageType
      (((Cache.sound_empty bare.session.files).packageType_root hroot).trans ?_)
    rw [Cache.reading_of_unknown rfl, hfound]
    rfl
  have hanswers := h bare earlier (.packageType p)
  rw [hlater, hfresh] at hanswers
  cases hanswers

end ScriptModules

import ScriptModules.Proofs.Resolve.Asked

/-!
# What path mapping changes

Path mapping is for names. No form of a path can be mapped, except for the two that consist of
dots alone: with an extension these become names. For modules of vendored packages nothing is
mapped at all. A name for which no mapping comes to anything is resolved as without projects, as
long as this holds of all the names that the search comes to.
-/

namespace ScriptModules.Resolve.Search

open Specifier (withoutNodePrefix)

variable {σ : Type} {s : Session} {c : Context}

/-- Where no attempt is mapped, searches do the same whatever the projects are. -/
theorem resolveWithin_eq_of_unmapped {I : String → Fallback → Prop} (p q : Project.Registry)
    (hkept : Kept { s with projects := p } c I)
    (hp : ∀ specifier fallback, I specifier fallback → mappedUrls { s with projects := p }
      (withoutNodePrefix s.capabilities specifier) c = [])
    (hq : ∀ specifier fallback, I specifier fallback → mappedUrls { s with projects := q }
      (withoutNodePrefix s.capabilities specifier) c = [])
    (next : Resolver σ) {specifier : String} {fallback : Fallback} (hI : I specifier fallback)
    (depth : Nat) :
    resolveWithin { s with projects := p } next c depth specifier fallback =
      resolveWithin { s with projects := q } next c depth specifier fallback := by
  induction depth generalizing specifier fallback with
  | zero => rfl
  | succ depth ih =>
    apply (Simulation.eq s p q next c).attempt rfl
    · exact (hq specifier fallback hI).trans (hp specifier fallback hI).symm
    · exact fun u hu => ih (hkept.mapped hI hu)
    · exact fun form hform => ih (hkept.derived hI hform)

/-- What comes of a specifier, and the calls that are made for it, are the same whatever the
projects are. -/
def MappingFree (specifier : String) : Prop :=
  ∀ {σ : Type} (s : Session) (p q : Project.Registry) (next : Resolver σ) (c : Context)
    (st : State σ), observe { s with projects := p } next specifier c st =
      observe { s with projects := q } next specifier c st

/-- Searches for a path do the same whatever the projects are. -/
theorem resolveWithin_path_eq (p q : Project.Registry) (next : Resolver σ) {specifier : String}
    (hp : Specifier.hasPathFront specifier = true) (depth : Nat) (fallback : Fallback) :
    resolveWithin { s with projects := p } next c depth specifier fallback =
      resolveWithin { s with projects := q } next c depth specifier fallback := by
  have hunmapped (s' : Session) (x : String) (hx : Specifier.hasPathFront x = true) :
      mappedUrls s' (withoutNodePrefix s.capabilities x) c = [] := by
    rw [Specifier.withoutNodePrefix_of_hasPathFront hx]
    exact mappedUrls_eq_nil hx
  exact resolveWithin_eq_of_unmapped p q (kept_paths _ c) (fun x _ => hunmapped _ x)
    (fun x _ => hunmapped _ x) next hp depth

/-- Nothing about a path depends on the projects. -/
theorem mappingFree_of_hasPathFront {specifier : String}
    (hp : Specifier.hasPathFront specifier = true) : MappingFree specifier := by
  intro σ s p q next c st
  simp only [observe, run_resolve, resolveWithin_path_eq p q _ hp]

/-- A registry whose only project maps names by one pattern. -/
def mappingBy (pattern target : String) : Project.Registry where
  projects := [{
    path := ⟨"/w/tsconfig.json"⟩
    dir := ⟨"/w"⟩
    baseUrl := none
    mappings := [Project.mappingOf ⟨"/w"⟩ pattern [target]]
    compilerOptions := []
    references := []
    scope := ⟨⟨"/w"⟩, [], none, []⟩ }]

/-- A host whose answers depend on nothing but what it is asked. -/
def answering (f : String → Context → Except Fault Target) : Resolver σ := fun specifier c st =>
  (f specifier c, st)

/-- The answers of a host that has one module. -/
def onlyModule (found : String) (specifier : String) (c : Context) : Except Fault Target :=
  if specifier = found then .ok ⟨{ scheme := "node", location := .plain "found" }, some .builtin⟩
  else .error (.missing specifier c)

/-- With an extension, dots alone become a name, which may be mapped. -/
theorem not_mappingFree_dots {specifier : String} (h : specifier = "." ∨ specifier = "..") :
    ¬ MappingFree specifier := by
  intro hfree
  have heq := hfree (Session.withoutProjects {} { cwd := ⟨"/w"⟩ }) (mappingBy "*" "mapped.js") {}
    (answering (onlyModule "file:///w/mapped.js")) {} ⟨{}, ()⟩
  have hfst := congrArg Prod.fst heq
  rcases h with rfl | rfl
  · exact absurd hfst (by decide +kernel)
  · exact absurd hfst (by decide +kernel)

/-- Path mapping is never applied to paths, unless they consist of dots alone. -/
theorem mappingFree_iff {specifier : String} (h : Specifier.isPath specifier = true) :
    MappingFree specifier ↔ specifier ≠ "." ∧ specifier ≠ ".." := by
  constructor
  · intro hfree
    exact ⟨fun hdot => not_mappingFree_dots (Or.inl hdot) hfree,
      fun hdots => not_mappingFree_dots (Or.inr hdots) hfree⟩
  · rintro ⟨hdot, hdots⟩
    exact mappingFree_of_hasPathFront (Specifier.hasPathFront_of_isPath h hdot hdots)

/-- A path with more than dots is never mapped. -/
theorem mappingFree_relative : Specifier.isPath "./a" = true ∧ MappingFree "./a" := by
  have hpath : Specifier.isPath "./a" = true := by decide +kernel
  exact ⟨hpath, (mappingFree_iff hpath).mpr ⟨by decide, by decide⟩⟩

/-- Being a path does not keep a specifier from being mapped. -/
theorem not_forall_mappingFree :
    ¬ ∀ specifier, Specifier.isPath specifier = true → MappingFree specifier := by
  intro h
  exact not_mappingFree_dots (Or.inl rfl) (h "." (by decide +kernel))

/-- For a module of a vendored package, searches do the same whatever the projects are. -/
theorem resolveWithin_vendored_eq (hc : Specifier.isVendored c.parent = true)
    (p q : Project.Registry) (next : Resolver σ) (depth : Nat) (specifier : String)
    (fallback : Fallback) :
    resolveWithin { s with projects := p } next c depth specifier fallback =
      resolveWithin { s with projects := q } next c depth specifier fallback := by
  have hunmapped (s' : Session) (name : String) : mappedUrls s' name c = [] := by
    simp [mappedUrls, hc]
  have hkept : Kept { s with projects := p } c fun _ _ => True :=
    ⟨fun _ _ => trivial, fun _ _ => trivial⟩
  exact resolveWithin_eq_of_unmapped p q hkept (fun _ _ _ => hunmapped _ _)
    (fun _ _ _ => hunmapped _ _) next trivial depth

/-- A module of a vendored package does not see the projects: whatever it asks for, the outcome, the
state that is left and the calls of the host are the same with any two registries. -/
theorem resolve_vendored_eq (hc : Specifier.isVendored c.parent = true) (s : Session)
    (p q : Project.Registry) (next : Resolver σ) (specifier : String) (st : State σ) :
    resolve { s with projects := p } next specifier c st =
        resolve { s with projects := q } next specifier c st ∧
      observe { s with projects := p } next specifier c st =
        observe { s with projects := q } next specifier c st := by
  constructor
  · rw [run_resolve, run_resolve, resolveWithin_vendored_eq hc p q]
  · rw [observe, observe, run_resolve, run_resolve, resolveWithin_vendored_eq hc p q]

/-- A vendored package asks for a name that the project maps to the only file there is, and comes to
nothing, as without the project. -/
theorem resolve_vendored_eq_mapped :
    let s := Session.withoutProjects {} { cwd := ⟨"/w"⟩ }
    let p := mappingBy "*" "mapped.js"
    let next : Resolver Unit := answering (onlyModule "file:///w/mapped.js")
    let c : Context := { parent := Url.ofPath? ⟨"/w/node_modules/dep/index.ts"⟩ }
    Specifier.isVendored c.parent = true ∧
      (observe { s with projects := p } next "a" {} ⟨{}, ()⟩).2.map (·.specifier) =
        ["file:///w/mapped.js"] ∧
      (observe { s with projects := p } next "a" c ⟨{}, ()⟩).2.map (·.specifier) =
        ["a", "a.ts", "a.tsx", "a.js", "a.json", "a.ts", "a.tsx", "a.tsx", "a.jsx"] ∧
      resolve { s with projects := p } next "a" c ⟨{}, ()⟩ =
        resolve { s with projects := {} } next "a" c ⟨{}, ()⟩ ∧
      observe { s with projects := p } next "a" c ⟨{}, ()⟩ =
        observe { s with projects := {} } next "a" c ⟨{}, ()⟩ := by
  intro s p next c
  have hc : Specifier.isVendored c.parent = true := by decide +kernel
  exact ⟨hc, by decide +kernel, by decide +kernel,
    resolve_vendored_eq hc s p {} next "a" ⟨{}, ()⟩⟩

/-- A step that fails recoverably in every state and leaves it alone, or in no state at all. -/
def Steady (m : Step σ Target) : Prop :=
  (∃ f, f.isRecoverable = true ∧ m = throw f) ∨
    ∀ st f, (m st).1 = .error f → f.isRecoverable = false

/-- To fail recoverably is steady, and so is to fail for good. -/
theorem steady_throw (f : Fault) : Steady (throw f : Step σ Target) := by
  cases hf : f.isRecoverable with
  | true => exact Or.inl ⟨f, hf, rfl⟩
  | false =>
    refine Or.inr fun st g hg => ?_
    obtain rfl := Except.error.inj hg
    exact hf

/-- Searches over a host whose answers depend on nothing else are steady. -/
theorem simulation_steady (s : Session) (f : String → Context → Except Fault Target)
    (c : Context) :
    Simulation s s (answering f) (answering f) c fun (m : Step σ Target) (_ : Step σ Target) =>
      Steady m where
  fails g _ := steady_throw g
  catches := by
    intro m _ handle _ hm h
    rcases hm with ⟨g, -, rfl⟩ | hm
    · exact h.rel steady_throw g
    · have hpass : tryCatch m handle = m := by
        funext st
        rw [run_tryCatch]
        rcases hrun : m st with ⟨g | t, after⟩
        · exact congrFun (h.passes g (hm st g (by rw [hrun]))).1 after
        · rfl
      rw [hpass]
      exact Or.inr hm
  asks := by
    intro specifier failed _ h
    cases hf : f specifier c with
    | error g =>
      have hask : askOr s (answering f) specifier c failed = failed g := by
        funext st
        rw [run_askOr, answering, hf]
      rw [hask]
      exact h.rel steady_throw g
    | ok t =>
      refine Or.inr fun st g hg => ?_
      rw [run_askOr, answering, hf] at hg
      simp only [run_decideFormat] at hg
      obtain ⟨cause, rfl⟩ := decided_error hg
      exact Fault.isRecoverable_config cause

/-- A specifier that fails recoverably once always fails so. -/
theorem resolveWithin_eq_throw {f : String → Context → Except Fault Target} {specifier : String}
    {st : State σ} {g : Fault} (h : (resolve s (answering f) specifier c st).1 = .error g)
    (hg : g.isRecoverable = true) :
    ∃ g', g'.isRecoverable = true ∧ resolveWithin s (answering f) c depthLimit specifier .allowed =
      (throw g' : Step σ Target) := by
  rcases (simulation_steady s f c).resolveWithin depthLimit specifier .allowed with hs | hs
  · exact hs
  · rw [run_resolve] at h
    cases hrun : (resolveWithin s (answering f) c depthLimit specifier .allowed st).1 with
    | ok t =>
      rw [hrun] at h
      cases h
    | error g' =>
      rw [hrun] at h
      obtain rfl := Except.error.inj h
      simp [hs st g' hrun] at hg

/-- Nothing comes of what a name is mapped to: all of it fails recoverably. -/
def Fruitless (s : Session) (f : String → Context → Except Fault Target) (c : Context)
    (st : State σ) (name : String) : Prop :=
  ∀ u ∈ mappedUrls s name c, ∃ g, (resolve s (answering f) u c st).1 = .error g ∧
    g.isRecoverable = true

/-- Resolve within a depth as `resolveWithin` does, and keep a record of the specifiers for which
a mapping is looked up. -/
def lookupsWithin (s : Session) (f : String → Context → Except Fault Target) (c : Context) :
    Nat → Again (List String)
  | 0, specifier, _ => throw (.missing specifier c)
  | depth + 1, specifier, fallback => do
    let name := withoutNodePrefix s.capabilities specifier
    unless Specifier.isDirectory name do
      modify fun st => { st with host := st.host ++ [name] }
    attempt s (answering f) (lookupsWithin s f c depth) specifier c fallback

/-- The specifiers for which a mapping is looked up when a specifier is resolved. -/
def lookups (s : Session) (f : String → Context → Except Fault Target) (specifier : String)
    (c : Context) (packages : Package.Cache) : List String :=
  (lookupsWithin s f c depthLimit specifier .allowed ⟨packages, []⟩).2.host

/-- Where there are no projects, nothing is mapped. -/
theorem mappedUrls_withoutProjects (s : Session) (name : String) (c : Context) :
    mappedUrls { s with projects := {} } name c = [] := by
  have hnone : mappingConfig? { s with projects := {} } c = none := by
    unfold mappingConfig?
    cases c.parentPath? <;> rfl
  simp [mappedUrls, hnone]

/-- Without projects, an attempt at a name adds it to the record and goes on without a mapping. -/
theorem run_lookupsWithin_succ (s : Session) (f : String → Context → Except Fault Target)
    (c : Context) (depth : Nat) (specifier : String) (fallback : Fallback)
    (packages : Package.Cache) (names : List String) :
    lookupsWithin { s with projects := {} } f c (depth + 1) specifier fallback ⟨packages, names⟩ =
      let name := withoutNodePrefix s.capabilities specifier
      let again := lookupsWithin { s with projects := {} } f c depth
      if Specifier.isDirectory name then probeDirectory again name c ⟨packages, names⟩
      else searchUnmapped { s with projects := {} } (answering f) again name c fallback
        ⟨packages, names ++ [name]⟩ := by
  rw [lookupsWithin, attempt_eq]
  dsimp only
  rw [mappedUrls_withoutProjects]
  cases hd : Specifier.isDirectory (withoutNodePrefix s.capabilities specifier) <;> rfl

/-- Candidates that all fail recoverably are passed over. -/
theorem firstOr_eq_last {attempt : String → Step σ Target} {candidates : List String}
    (h : ∀ x ∈ candidates, ∃ g, g.isRecoverable = true ∧ attempt x = throw g)
    (last : Step σ Target) : firstOr attempt Fault.isRecoverable last candidates = last := by
  induction candidates with
  | nil => rfl
  | cons x rest ih =>
    obtain ⟨g, hg, hx⟩ := h x List.mem_cons_self
    rw [firstOr, hx, tryCatch_throw, if_pos hg]
    exact ih fun y hy => h y (List.mem_cons_of_mem _ hy)

/-- A step that does the same as one that keeps a record of names, as long as what the latter
adds to the record satisfies `P`. -/
def AgreesOn (P : String → Prop) (m : Step σ Target) (m' : Step (List String) Target) : Prop :=
  ∀ st names, ∃ more, (m' ⟨st.packages, names⟩).2.host = names ++ more ∧
    ((∀ name ∈ more, P name) →
      m st = ((m' ⟨st.packages, names⟩).1, ⟨(m' ⟨st.packages, names⟩).2.packages, st.host⟩))

/-- Steps that fail alike keep no record. -/
theorem agreesOn_throw (P : String → Prop) (g : Fault) :
    AgreesOn P (throw g : Step σ Target) (throw g) := by
  intro st names
  exact ⟨[], (List.append_nil names).symm, fun _ => rfl⟩

/-- Agreement is kept from step to step. -/
theorem simulation_agreesOn (s : Session) (p q : Project.Registry)
    (f : String → Context → Except Fault Target) (c : Context) (P : String → Prop) :
    Simulation { s with projects := p } { s with projects := q } (answering f) (answering f) c
      (AgreesOn P : Step σ Target → Step (List String) Target → Prop) where
  fails g _ := agreesOn_throw P g
  catches := by
    intro m m' handle handle' hm h st names
    have hhandle := h.rel (agreesOn_throw P)
    obtain ⟨earlier, hearlier, hm⟩ := hm st names
    rw [run_tryCatch, run_tryCatch]
    rcases hrun : m' ⟨st.packages, names⟩ with ⟨g | t, after⟩ <;> rw [hrun] at hearlier hm
    · obtain ⟨more, hmore, hg⟩ := hhandle g ⟨after.packages, st.host⟩ after.host
      refine ⟨earlier ++ more, ?_, fun hall => ?_⟩
      · exact hmore.trans (by rw [hearlier, List.append_assoc])
      · rw [hm fun name hname => hall name (List.mem_append_left _ hname)]
        exact hg fun name hname => hall name (List.mem_append_right _ hname)
    · refine ⟨earlier, hearlier, fun hall => ?_⟩
      rw [hm hall]
  asks := by
    intro specifier failed failed' h st names
    rw [run_askOr, run_askOr]
    simp only [answering]
    cases f specifier c with
    | error g => exact h.rel (agreesOn_throw P) g st names
    | ok t =>
      simp only [run_decideFormat, decided_withProjects]
      exact ⟨[], by simp, by simp⟩

/-- A search agrees with one that looks up the same names without projects, as long as nothing
comes of the names. -/
theorem resolveWithin_agreesOn {f : String → Context → Except Fault Target} {P : String → Prop}
    (hP : ∀ name, P name → ∀ u ∈ mappedUrls s name c, ∃ g, g.isRecoverable = true ∧
      resolveWithin s (answering f) c depthLimit u .allowed = (throw g : Step σ Target))
    {depth : Nat} {specifier : String} {fallback : Fallback}
    (hdepth : rank s specifier fallback ≤ depth) :
    AgreesOn P (resolveWithin s (answering f) c depth specifier fallback : Step σ Target)
      (lookupsWithin { s with projects := {} } f c depth specifier fallback) := by
  induction depth generalizing specifier fallback with
  | zero => exact absurd hdepth (by have := rank_pos s specifier fallback; omega)
  | succ depth ih =>
    have hsim := simulation_agreesOn (σ := σ) s s.projects {} f c P
    have hforms : ∀ x, Derived c (withoutNodePrefix s.capabilities specifier) fallback x →
        AgreesOn P (resolveWithin s (answering f) c depth x .nested : Step σ Target)
          (lookupsWithin { s with projects := {} } f c depth x .nested) := by
      intro x hx
      have hlt : rank s x .nested < rank s specifier fallback := hx.rank_lt
      exact ih (by omega)
    -- `hP` speaks of files at the limit, the search comes to them at what is left of its depth.
    have hurls : ∀ u ∈ mappedUrls s (withoutNodePrefix s.capabilities specifier) c,
        resolveWithin s (answering f) c depth u .allowed =
          (resolveWithin s (answering f) c depthLimit u .allowed : Step σ Target) := by
      intro u hu
      have hlt : rank s u .allowed < rank s specifier fallback := rank_lt_of_mem_mappedUrls hu
      exact resolveWithin_eq_of_rank_le _ (by omega) (rank_le_depthLimit s u .allowed)
    intro st names
    rw [run_lookupsWithin_succ, resolveWithin, attempt_eq]
    dsimp only
    generalize withoutNodePrefix s.capabilities specifier = name at hforms hurls
    cases hd : Specifier.isDirectory name with
    | true => exact hsim.probeDirectory (Or.inr hd) hforms st names
    | false =>
      obtain ⟨more, hmore, hagrees⟩ := hsim.searchUnmapped hd hforms st (names ++ [name])
      refine ⟨name :: more, hmore.trans (by simp), fun hall => ?_⟩
      rw [if_neg Bool.false_ne_true, if_neg Bool.false_ne_true, firstOr_eq_last fun u hu => ?_]
      · exact hagrees fun x hx => hall x (List.mem_cons_of_mem _ hx)
      · rw [hurls u hu]
        exact hP name (hall name List.mem_cons_self) u hu

/-- Keeping a record of the names changes nothing without projects. -/
theorem run_resolveWithin_withoutProjects (s : Session)
    (f : String → Context → Except Fault Target) (specifier : String) (c : Context)
    (st : State σ) :
    resolveWithin { s with projects := {} } (answering f) c depthLimit specifier .allowed st =
      let run := lookupsWithin { s with projects := {} } f c depthLimit specifier .allowed
        ⟨st.packages, []⟩
      (run.1, ⟨run.2.packages, st.host⟩) := by
  obtain ⟨_, -, hagrees⟩ := resolveWithin_agreesOn (s := { s with projects := {} }) (f := f)
    (c := c) (P := fun _ => True) (by simp [mappedUrls_withoutProjects])
    (rank_le_depthLimit _ specifier .allowed) st []
  exact hagrees fun _ _ => trivial

/-- If nothing comes of the names that are looked up without projects, a specifier is resolved as
without projects. -/
theorem resolve_eq_withoutProjects (s : Session) (f : String → Context → Except Fault Target)
    (specifier : String) (c : Context) (st : State σ)
    (h : ∀ name ∈ lookups { s with projects := {} } f specifier c st.packages,
      Fruitless s f c st name) :
    resolve s (answering f) specifier c st =
      resolve { s with projects := {} } (answering f) specifier c st := by
  have hP (name : String) (hname : Fruitless s f c st name) : ∀ u ∈ mappedUrls s name c,
      ∃ g, g.isRecoverable = true ∧
        resolveWithin s (answering f) c depthLimit u .allowed = (throw g : Step σ Target) := by
    intro u hu
    obtain ⟨g, hfails, hg⟩ := hname u hu
    exact resolveWithin_eq_throw hfails hg
  obtain ⟨more, hmore, hagrees⟩ :=
    resolveWithin_agreesOn hP (rank_le_depthLimit s specifier .allowed) st []
  rw [List.nil_append] at hmore
  have hall : ∀ name ∈ more, Fruitless s f c st name := by
    intro name hname
    rw [← hmore] at hname
    exact h name hname
  rw [run_resolve, run_resolve, hagrees hall, run_resolveWithin_withoutProjects]

/-- A name that is mapped to a missing file is resolved as without projects. -/
theorem resolve_eq_withoutProjects_missing :
    let s : Session :=
      { Session.withoutProjects {} { cwd := ⟨"/w"⟩ } with projects := mappingBy "*" "mapped.js" }
    let f := onlyModule "a"
    (∀ name ∈ lookups { s with projects := {} } f "a" {} {}, Fruitless s f {} ⟨{}, ()⟩ name) ∧
      resolve s (answering f) "a" {} ⟨{}, ()⟩ =
        resolve { s with projects := {} } (answering f) "a" {} ⟨{}, ()⟩ := by
  intro s f
  have hlookups : lookups { s with projects := {} } f "a" {} {} = ["a"] := by decide +kernel
  have hmapped : mappedUrls s "a" {} = ["file:///w/mapped.js"] := by decide +kernel
  have hfails : (resolve s (answering f) "file:///w/mapped.js" {} ⟨{}, ()⟩).1 =
      .error (.notFound "file:///w/mapped.js" "file:///w/mapped.js.js" none) := by decide +kernel
  have h : ∀ name ∈ lookups { s with projects := {} } f "a" {} {},
      Fruitless s f {} ⟨{}, ()⟩ name := by
    intro name hname u hu
    rw [hlookups] at hname
    obtain rfl := List.mem_singleton.mp hname
    rw [hmapped] at hu
    obtain rfl := List.mem_singleton.mp hu
    exact ⟨_, hfails, rfl⟩
  exact ⟨h, resolve_eq_withoutProjects s f "a" {} ⟨{}, ()⟩ h⟩

/-- That nothing comes of a name itself is not enough: the name with an extension may be mapped as
well. -/
theorem not_forall_fruitless_eq :
    ¬ ∀ (s : Session) (f : String → Context → Except Fault Target) (specifier : String)
      (c : Context) (st : State Unit), Specifier.isBare specifier = true →
        Fruitless s f c st specifier →
        (resolve s (answering f) specifier c st).1 =
          (resolve { s with projects := {} } (answering f) specifier c st).1 := by
  intro h
  let s : Session :=
    { Session.withoutProjects {} { cwd := ⟨"/w"⟩ } with projects := mappingBy "a.js" "mapped.js" }
  have hmapped : mappedUrls s "a" {} = [] := by decide +kernel
  have heq := h s (onlyModule "file:///w/mapped.js") "a" {} ⟨{}, ()⟩ (by decide +kernel)
    (by simp [Fruitless, hmapped])
  exact absurd heq (by decide +kernel)

end ScriptModules.Resolve.Search

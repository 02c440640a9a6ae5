import ScriptModules.Resolve.Search

/-!
# Steps of a search

What a step does to a state, and a search as what is done when something fails. Whatever two
searches keep when they pass on a failure, catch one that is recoverable or ask their hosts, they
keep at every depth.
-/

namespace ScriptModules.Resolve

variable {σ τ α β : Type}

@[simp] theorem run_pure (a : α) (st : State σ) : (pure a : Step σ α) st = (.ok a, st) := rfl

@[simp] theorem run_throw (f : Fault) (st : State σ) :
    (throw f : Step σ α) st = (.error f, st) := rfl

/-- What follows a step runs after it unless the step fails. -/
theorem run_bind (m : Step σ α) (next : α → Step σ β) (st : State σ) :
    (m >>= next) st = match m st with
      | (.ok a, after) => next a after
      | (.error f, after) => (.error f, after) := by
  simp only [bind, ExceptT.bind, ExceptT.mk, StateT.bind]
  rcases m st with ⟨_ | _, after⟩ <;> rfl

/-- Changing what a step gives changes nothing about how it runs. -/
theorem run_map (g : α → β) (m : Step σ α) (st : State σ) :
    (g <$> m) st = match m st with
      | (.ok a, after) => (.ok (g a), after)
      | (.error f, after) => (.error f, after) := by
  simp only [Functor.map, ExceptT.map, ExceptT.mk, bind, StateT.bind]
  rcases m st with ⟨_ | _, after⟩ <;> rfl

/-- What handles a failure runs in the state after it. -/
theorem run_tryCatch (m : Step σ α) (handle : Fault → Step σ α) (st : State σ) :
    (tryCatch m handle) st = match m st with
      | (.ok a, after) => (.ok a, after)
      | (.error f, after) => handle f after := by
  simp only [tryCatch, tryCatchThe, MonadExceptOf.tryCatch, ExceptT.tryCatch, ExceptT.mk, bind,
    StateT.bind]
  rcases m st with ⟨_ | _, after⟩ <;> rfl

@[simp] theorem run_get (st : State σ) : (get : Step σ (State σ)) st = (.ok st, st) := rfl

@[simp] theorem run_set (st st' : State σ) : (set st' : Step σ PUnit) st = (.ok ⟨⟩, st') := rfl

/-- A failure that is caught is handled right away. -/
theorem tryCatch_throw (f : Fault) (handle : Fault → Step σ α) :
    tryCatch (throw f) handle = handle f := rfl

/-- A question to the packages touches nothing of the host. -/
theorem run_askPackages (ask : Package.Cache → Except Project.Fault α × Package.Cache)
    (st : State σ) :
    askPackages ask st =
      ((ask st.packages).1.mapError .config, ⟨(ask st.packages).2, st.host⟩) := by
  rcases h : ask st.packages with ⟨_ | _, packages⟩ <;>
    simp only [askPackages, run_bind, run_get, run_set, run_pure, run_throw, h] <;> rfl

namespace Fault

@[simp] theorem isRecoverable_relabel (s : String) (f : Fault) :
    (f.relabel s).isRecoverable = f.isRecoverable := by
  cases f <;> rfl

@[simp] theorem relabel_relabel (s t : String) (f : Fault) :
    (f.relabel s).relabel t = f.relabel t := by
  cases f <;> rfl

@[simp] theorem kind_relabel (s : String) (f : Fault) : (f.relabel s).kind = f.kind := by
  cases f <;> rfl

/-- Whatever is recoverable shows a specifier, so that another one can be shown. -/
theorem specifier?_relabel {f : Fault} (h : f.isRecoverable = true) (s : String) :
    (f.relabel s).specifier? = some s := by
  cases f with
  | config cause => exact absurd h (by simp [isRecoverable, kind])
  | _ => rfl

@[simp] theorem isRecoverable_missing (s : String) (c : Context) :
    (missing s c).isRecoverable = true := rfl

@[simp] theorem isRecoverable_config (cause : Project.Fault) :
    (config cause).isRecoverable = false := rfl

end Fault

namespace Search

/-- The format of a module that the host left undecided, and what is known of the packages after
that. -/
def inferredFormat (s : Session) (u : Url) (packages : Package.Cache) :
    Except Project.Fault ModuleFormat × Package.Cache :=
  if u.scheme == "file" then
    match Location.classify u.path, u.toPath? with
    | some format, _ => (.ok format, packages)
    | none, some path => packages.packageType s.files path
    | none, none => (.ok .script, packages)
  else (.ok .dynamic, packages)

/-- A target with its format, and what is known of the packages after that. -/
def decided (s : Session) (t : Target) (packages : Package.Cache) :
    Except Fault Target × Package.Cache :=
  if t.format.isSome then (.ok t, packages)
  else
    let (answer, packages) := inferredFormat s t.url packages
    ((answer.map fun format => { t with format := some format }).mapError .config, packages)

/-- Deciding a format depends on the packages alone, and leaves the host alone. -/
theorem run_decideFormat (s : Session) (t : Target) (st : State σ) :
    decideFormat s t st =
      ((decided s t st.packages).1, ⟨(decided s t st.packages).2, st.host⟩) := by
  unfold decideFormat decided inferredFormat
  split
  · rfl
  split
  · cases Location.classify t.url.path with
    | some format => rfl
    | none =>
      cases t.url.toPath? with
      | none => rfl
      | some path =>
        simp only [run_bind, run_askPackages]
        rcases st.packages.packageType s.files path with ⟨_ | _, packages⟩ <;> rfl
  · rfl

/-- A decided target is where it was and has a format. -/
theorem decided_ok {s : Session} {t t' : Target} {packages : Package.Cache}
    (h : (decided s t packages).1 = .ok t') : t'.url = t.url ∧ t'.format.isSome = true := by
  unfold decided at h
  split at h
  · rename_i hformat
    obtain rfl := Except.ok.inj h
    exact ⟨rfl, hformat⟩
  · rcases hi : inferredFormat s t.url packages with ⟨_ | format, _⟩ <;> rw [hi] at h
    · cases h
    · obtain rfl := Except.ok.inj h
      exact ⟨rfl, rfl⟩

/-- A format that cannot be decided is a fault of a package. -/
theorem decided_error {s : Session} {t : Target} {packages : Package.Cache} {f : Fault}
    (h : (decided s t packages).1 = .error f) : ∃ cause, f = .config cause := by
  unfold decided at h
  split at h
  · exact absurd h (by simp)
  · rcases hi : inferredFormat s t.url packages with ⟨cause | _, _⟩ <;> rw [hi] at h
    · exact ⟨cause, (Except.error.inj h).symm⟩
    · cases h

/-- The projects have no part in deciding a format. -/
theorem decided_withProjects (s : Session) (p : Project.Registry) (t : Target)
    (packages : Package.Cache) :
    decided { s with projects := p } t packages = decided s t packages := rfl

/-- Showing another specifier changes nothing about a decided format. -/
theorem mapError_decided (s : Session) (t : Target) (packages : Package.Cache) (shown : String) :
    (decided s t packages).1.mapError (Fault.relabel shown) = (decided s t packages).1 := by
  cases h : (decided s t packages).1 with
  | ok t' => rfl
  | error f =>
    obtain ⟨cause, rfl⟩ := decided_error h
    rfl

/-- A failure shows the specifier that was given. -/
theorem run_resolve (s : Session) (next : Resolver σ) (specifier : String) (c : Context)
    (st : State σ) :
    resolve s next specifier c st =
      ((resolveWithin s next c depthLimit specifier .allowed st).1.mapError
        (Fault.relabel specifier),
        (resolveWithin s next c depthLimit specifier .allowed st).2) := by
  rw [resolve, run_tryCatch]
  rcases resolveWithin s next c depthLimit specifier .allowed st with ⟨_ | _, after⟩ <;> rfl

/-- The first candidate that can be resolved, or what comes last. A failure that `skips` does not
pass over ends the search. -/
def firstOr (attempt : String → Step σ Target) (skips : Fault → Bool) (last : Step σ Target) :
    List String → Step σ Target
  | [] => last
  | candidate :: rest =>
    tryCatch (attempt candidate) fun f =>
      if skips f then firstOr attempt skips last rest else throw f

/-- Looking for the first candidate and going on without one. -/
theorem firstOf_bind (attempt : String → Step σ Target) (skips : Fault → Bool)
    (last : Step σ Target) (candidates : List String) :
    (do match ← firstOf attempt skips candidates with
        | some target => return target
        | none => last) = firstOr attempt skips last candidates := by
  induction candidates with
  | nil => rfl
  | cons candidate rest ih =>
    funext st
    simp only [firstOf, firstOr, ← ih, run_bind, run_tryCatch, run_map]
    rcases attempt candidate st with ⟨f | t, after⟩
    · by_cases hskip : skips f = true
      · simp only [hskip, ite_true, run_bind]
      · simp only [hskip]
        rfl
    · rfl

/-- Only how the candidates are resolved matters. -/
theorem firstOr_congr {attempt attempt' : String → Step σ Target} {candidates : List String}
    (h : ∀ x ∈ candidates, attempt x = attempt' x) (skips : Fault → Bool) (last : Step σ Target) :
    firstOr attempt skips last candidates = firstOr attempt' skips last candidates := by
  induction candidates with
  | nil => rfl
  | cons x rest ih =>
    rw [firstOr, firstOr, h x List.mem_cons_self, ih fun y hy => h y (List.mem_cons_of_mem _ hy)]

/-- Ask the host and decide the format of its answer, or go on after its failure. -/
def askOr (s : Session) (next : Resolver σ) (specifier : String) (c : Context)
    (failed : Fault → Step σ Target) : Step σ Target := do
  let answer ← tryCatch (Sum.inl <$> next specifier c) fun f => return Sum.inr f
  match answer with
  | .inl target => decideFormat s target
  | .inr f => failed f

/-- What the host answers has its format decided, and what it refuses goes on as said. -/
theorem run_askOr (s : Session) (next : Resolver σ) (specifier : String) (c : Context)
    (failed : Fault → Step σ Target) (st : State σ) :
    askOr s next specifier c failed st = match next specifier c st with
      | (.ok target, after) => decideFormat s target after
      | (.error f, after) => failed f after := by
  simp only [askOr, run_bind, run_tryCatch, run_map]
  rcases next specifier c st with ⟨_ | _, after⟩ <;> rfl

/-- What is done with a specifier that no mapping applies to. -/
def searchUnmapped (s : Session) (next : Resolver σ) (again : Again σ) (specifier : String)
    (c : Context) (fallback : Fallback) : Step σ Target :=
  firstOr (again · .nested) skipsSource
    (askOr s next specifier c (recover again specifier c fallback)) (prioritySources specifier c)

/-- An attempt tries the index of a directory, or what a specifier is mapped to before the
specifier itself. -/
theorem attempt_eq (s : Session) (next : Resolver σ) (again : Again σ) (specifier : String)
    (c : Context) (fallback : Fallback) :
    attempt s next again specifier c fallback =
      let specifier := Specifier.withoutNodePrefix s.capabilities specifier
      if Specifier.isDirectory specifier then probeDirectory again specifier c
      else
        firstOr (again · .allowed) Fault.isRecoverable
          (searchUnmapped s next again specifier c fallback) (mappedUrls s specifier c) := by
  rw [attempt]
  dsimp only
  split
  · rfl
  · rw [← firstOf_bind, searchUnmapped, ← firstOf_bind]
    rfl

end Search

end ScriptModules.Resolve

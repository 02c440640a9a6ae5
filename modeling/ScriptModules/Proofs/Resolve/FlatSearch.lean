import ScriptModules.Proofs.Resolve.Calls
import ScriptModules.Proofs.Resolve.Depth

/-!
# The flat search for paths

For modules that are no sources, a path is never mapped and has no sources, so that its search
makes one flat run of calls: the path, and after its failure a fixed list of candidates.
-/

namespace ScriptModules.Resolve.Search

variable {σ : Type}

/-- Ask the host one specifier after the other, until it finds one or fails unrecoverably. What
failed before is collected. -/
def askInOrder (s : Session) (next : Resolver σ) (c : Context)
    (exhausted : List Fault → Step σ Target) : List String → List Fault → Step σ Target
  | [], failures => exhausted failures
  | specifier :: rest, failures =>
    askOr s next specifier c fun f =>
      if f.isRecoverable then askInOrder s next c exhausted rest (failures ++ [f]) else throw f

/-- What is asked after the first answer. -/
def further (specifier : String) : Except Fault Target → List String
  | .ok _ => []
  | .error f =>
    match f.kind with
    | .notFound => extensions.map (specifier ++ ·)
    | .unsupportedDirectory =>
      extensions.map (specifier ++ "/index" ++ ·) ++ extensions.map (specifier ++ ·)
    | _ => []

/-- What is reported when nothing was found: the failure of the first candidate, except that a
directory is reported as such rather than as an import that is not defined. -/
def reported (specifier : String) (f : Fault) (failures : List Fault) : Fault :=
  match failures with
  | [] => f
  | g :: _ =>
    if f.kind == .unsupportedDirectory && g.kind == .importNotDefined then f
    else g.relabel specifier

/-- Ask for a specifier, and after its failure for what is asked further. -/
def flatSearch (s : Session) (next : Resolver σ) (specifier : String) (c : Context) :
    Step σ Target :=
  askOr s next specifier c fun f =>
    askInOrder s next c (fun failures => throw (reported specifier f failures))
      (further specifier (.error f)) []

/-- A step whose failure shows a specifier. -/
def showing (specifier : String) (m : Step σ Target) : Step σ Target :=
  tryCatch m fun f => throw (f.relabel specifier)

variable {s : Session} {next : Resolver σ} {c : Context} {specifier : String}

/-- A handler that lets the faults of packages pass only sees what comes after the host. -/
theorem tryCatch_askOr {failed handle : Fault → Step σ Target}
    (h : ∀ cause, handle (.config cause) = throw (.config cause)) :
    tryCatch (askOr s next specifier c failed) handle =
      askOr s next specifier c fun f => tryCatch (failed f) handle := by
  funext st
  rw [run_tryCatch, run_askOr, run_askOr]
  rcases next specifier c st with ⟨f | t, after⟩
  · exact (run_tryCatch _ _ _).symm
  · dsimp only
    rw [run_decideFormat]
    cases hd : (decided s t after.packages).1 with
    | ok t' => rfl
    | error f =>
      obtain ⟨cause, rfl⟩ := decided_error hd
      exact congrFun (h cause) _

/-- A handler that lets pass what is not recoverable only sees the end of the list. -/
theorem tryCatch_askInOrder {handle : Fault → Step σ Target}
    (h : ∀ f, f.isRecoverable = false → handle f = throw f)
    (exhausted : List Fault → Step σ Target) (specifiers : List String) (failures : List Fault) :
    tryCatch (askInOrder s next c exhausted specifiers failures) handle =
      askInOrder s next c (fun failures => tryCatch (exhausted failures) handle) specifiers
        failures := by
  induction specifiers generalizing failures with
  | nil => rfl
  | cons specifier rest ih =>
    rw [askInOrder, tryCatch_askOr fun cause => h _ (Fault.isRecoverable_config cause)]
    congr 1
    funext f
    cases hf : f.isRecoverable with
    | true => exact ih _
    | false => exact h f hf

/-- What comes at the end of a list matters for as many recoverable failures only. -/
theorem askInOrder_congr {exhausted exhausted' : List Fault → Step σ Target}
    {specifiers : List String} {failures failures' : List Fault}
    (h : ∀ more, more.length = specifiers.length → (∀ f ∈ more, f.isRecoverable = true) →
      exhausted (failures ++ more) = exhausted' (failures' ++ more)) :
    askInOrder s next c exhausted specifiers failures =
      askInOrder s next c exhausted' specifiers failures' := by
  induction specifiers generalizing failures failures' with
  | nil => simpa [askInOrder] using h [] rfl (by simp)
  | cons specifier rest ih =>
    rw [askInOrder, askInOrder]
    congr 1
    funext f
    cases hf : f.isRecoverable with
    | true =>
      refine ih fun more hlength hmore => ?_
      simpa using h (f :: more) (by simp [hlength]) (by simpa [hf] using hmore)
    | false => rfl

/-- To ask for some specifiers and more is to ask for the others after all of the first failed. -/
theorem askInOrder_append (exhausted : List Fault → Step σ Target) (first rest : List String)
    (failures : List Fault) :
    askInOrder s next c exhausted (first ++ rest) failures =
      askInOrder s next c (askInOrder s next c exhausted rest) first failures := by
  induction first generalizing failures with
  | nil => rfl
  | cons specifier first ih => simp only [List.cons_append, askInOrder, ih]

/-- A module that is no source has no sources that are tried first. -/
theorem prioritySources_eq_nil (hc : c.parentIsSource = false) :
    prioritySources specifier c = [] := by
  simp [prioritySources, hc]

/-- For a module that is no source, an attempt at a path asks the host first. -/
theorem attempt_eq_askOr (hc : c.parentIsSource = false)
    (hp : Specifier.hasPathFront specifier = true)
    (hd : Specifier.isDirectory specifier = false) (again : Again σ) (fallback : Fallback) :
    attempt s next again specifier c fallback =
      askOr s next specifier c (recover again specifier c fallback) := by
  rw [attempt_path hp hd, searchUnmapped, prioritySources_eq_nil hc, firstOr]

/-- The failure that probing reports for a specifier. -/
def firstShown (shown : String) (c : Context) (failures : List Fault) : Fault :=
  (failures.head?.map (Fault.relabel shown)).getD (.missing shown c)

/-- Candidates that are only asked for are tried by asking for them in order. -/
theorem tryEach_eq {again : Again σ} {candidates : List String}
    (h : ∀ x ∈ candidates, again x .nested = askOr s next x c fun f => throw f) (shown : String)
    (failures : List Fault) :
    tryEach again shown candidates (failures.head?.map (Fault.relabel shown)) c =
      askInOrder s next c (fun failures => throw (firstShown shown c failures)) candidates
        failures := by
  induction candidates generalizing failures with
  | nil => rfl
  | cons x rest ih =>
    have hrest (f : Fault) := ih (fun y hy => h y (List.mem_cons_of_mem _ hy)) (failures ++ [f])
    rw [tryEach, askInOrder, h x List.mem_cons_self, tryCatch_askOr]
    · congr 1
      funext f
      rw [tryCatch_throw, ← hrest]
      cases failures <;> rfl
    · exact fun _ => rfl

/-- Probing a path asks for it with each extension in order. -/
theorem probeExtensions_eq (hc : c.parentIsSource = false)
    (hp : Specifier.hasPathFront specifier = true) (depth : Nat) :
    probeExtensions (resolveWithin s next c (depth + 1)) specifier c =
      askInOrder s next c (fun failures => throw (firstShown specifier c failures))
        (extensions.map (specifier ++ ·)) [] := by
  refine tryEach_eq (fun x hx => ?_) specifier []
  obtain ⟨e, he, rfl⟩ := List.mem_map.mp hx
  exact attempt_eq_askOr hc (Specifier.hasPathFront_append hp e) (isDirectory_append_extension he)
    _ _

/-- What probing reports is recoverable if all that failed was. -/
theorem isRecoverable_firstShown {failures : List Fault} (shown : String)
    (h : ∀ f ∈ failures, f.isRecoverable = true) :
    (firstShown shown c failures).isRecoverable = true := by
  cases failures with
  | nil => rfl
  | cons f rest => simpa [firstShown] using h f List.mem_cons_self

/-- Probing a directory asks for its index in order and for the path with each extension after
that, and reports the first failure. -/
theorem probeDirectory_eq (hc : c.parentIsSource = false)
    (hp : Specifier.hasPathFront specifier = true)
    (hd : Specifier.isDirectory specifier = false) (depth : Nat) :
    probeDirectory (resolveWithin s next c (depth + 1)) specifier c =
      askInOrder s next c (fun failures => throw (firstShown specifier c failures))
        (extensions.map (specifier ++ "/index" ++ ·) ++ extensions.map (specifier ++ ·)) [] := by
  rw [askInOrder_append, probeDirectory, if_neg (by simp [hd]),
    probeExtensions_eq hc (Specifier.hasPathFront_append hp _), probeExtensions_eq hc hp,
    tryCatch_askInOrder]
  · refine askInOrder_congr fun indexes hlength hindexes => ?_
    rw [tryCatch_throw, List.nil_append, if_pos (isRecoverable_firstShown _ hindexes),
      tryCatch_askInOrder]
    · -- The failure of the index is shown for the index first and for the specifier after that.
      refine askInOrder_congr fun more _ hmore => ?_
      rw [tryCatch_throw, List.nil_append, if_pos (isRecoverable_firstShown _ hmore)]
      cases indexes with
      | nil => simp [extensions] at hlength
      | cons g rest => simp [firstShown]
    · intro f hf
      simp [hf]
  · intro f hf
    simp [hf]

/-- After a failure, a path is searched as the flat search does. -/
theorem recover_eq (hc : c.parentIsSource = false)
    (hp : Specifier.hasPathFront specifier = true)
    (hd : Specifier.isDirectory specifier = false) (depth : Nat) (f : Fault) :
    recover (resolveWithin s next c (depth + 1)) specifier c .allowed f =
      askInOrder s next c (fun failures => throw (reported specifier f failures))
        (further specifier (.error f)) [] := by
  cases f with
  | notFound shown attempted parent =>
    change probeExtensions _ _ _ = _
    rw [probeExtensions_eq hc hp]
    refine askInOrder_congr fun failures hlength _ => ?_
    cases failures with
    | nil => simp [extensions] at hlength
    | cons g rest => rfl
  | unsupportedDirectory shown attempted parent =>
    change tryCatch (probeDirectory _ _ _) _ = _
    rw [probeDirectory_eq hc hp hd, tryCatch_askInOrder]
    · refine askInOrder_congr fun failures hlength _ => ?_
      cases failures with
      | nil => simp [extensions] at hlength
      | cons g rest =>
        rw [tryCatch_throw]
        cases g <;> rfl
    · intro g hg
      cases g <;> first | rfl | exact absurd hg (by simp [Fault.isRecoverable, Fault.kind])
  | _ => rfl

/-- For a module that is no source, a path is searched flatly. -/
theorem resolve_eq_showing_flatSearch (hc : c.parentIsSource = false)
    (hp : Specifier.hasPathFront specifier = true)
    (hd : Specifier.isDirectory specifier = false) :
    resolve s next specifier c = showing specifier (flatSearch s next specifier c) := by
  change tryCatch (attempt s next (resolveWithin s next c 5) specifier c .allowed) _ = _
  rw [attempt_eq_askOr hc hp hd, funext (recover_eq hc hp hd 4)]
  rfl

/-- The calls of asking in order: each specifier of a plan in turn, up to the first answer that is
no recoverable failure. -/
inductive AskedUpTo : List String → List Call → Prop
  | exhausted : AskedUpTo [] []
  | stopped {plan} (call : Call) : ¬ call.Recoverable → AskedUpTo (call.specifier :: plan) [call]
  | further {plan calls} (call : Call) : call.Recoverable → AskedUpTo plan calls →
      AskedUpTo (call.specifier :: plan) (call :: calls)

/-- Asking in order over a host with a record adds the calls up to where it stops. -/
theorem askInOrder_calls (s : Session) (next : Resolver σ) (c : Context)
    (fault : List Fault → Fault) (plan : List String) (failures : List Fault)
    (st : State (σ × List Call)) :
    ∃ calls, (askInOrder s (recorded next) c (fun failures => throw (fault failures)) plan
        failures st).2.host.2 = st.host.2 ++ calls ∧ AskedUpTo plan calls := by
  induction plan generalizing failures st with
  | nil => exact ⟨[], (List.append_nil _).symm, .exhausted⟩
  | cons specifier rest ih =>
    rw [askInOrder, run_askOr]
    simp only [recorded]
    rcases next specifier c (forget st) with ⟨f | t, after⟩
    · let call : Call := ⟨specifier, .error f, after.packages⟩
      cases hf : f.isRecoverable with
      | true =>
        obtain ⟨calls, hcalls, hasked⟩ := ih (failures ++ [f])
          ⟨after.packages, (after.host, st.host.2 ++ [call])⟩
        refine ⟨call :: calls, ?_, .further call ⟨f, rfl, hf⟩ hasked⟩
        simpa [hf] using hcalls
      | false =>
        refine ⟨[call], by simp [call, hf], .stopped call ?_⟩
        rintro ⟨g, hg, hrec⟩
        obtain rfl := Except.error.inj hg
        exact absurd hrec (by simp [hf])
    · let call : Call := ⟨specifier, .ok t, after.packages⟩
      refine ⟨[call], by simp [call, run_decideFormat], .stopped call ?_⟩
      rintro ⟨g, hg, -⟩
      exact absurd hg (by simp)

/-- A flat search asks for the specifier, and in order for what the answer leads to. -/
theorem flatSearch_calls (s : Session) (next : Resolver σ) (specifier : String) (c : Context)
    (st : State (σ × List Call)) :
    ∃ first rest, (flatSearch s (recorded next) specifier c st).2.host.2 =
        st.host.2 ++ first :: rest ∧ first.specifier = specifier ∧
      AskedUpTo (further specifier first.answer) rest := by
  rw [flatSearch, run_askOr]
  simp only [recorded]
  rcases next specifier c (forget st) with ⟨f | t, after⟩
  · let first : Call := ⟨specifier, .error f, after.packages⟩
    obtain ⟨rest, hrest, hasked⟩ := askInOrder_calls s next c (reported specifier f)
      (further specifier (.error f)) [] ⟨after.packages, (after.host, st.host.2 ++ [first])⟩
    exact ⟨first, rest, by simpa using hrest, rfl, hasked⟩
  · exact ⟨⟨specifier, .ok t, after.packages⟩, [], by simp [run_decideFormat], rfl, .exhausted⟩

/-- For a module that is no source, a path that asks for no directory is searched flatly: the
outcome and what is left of the state are those of the flat search, and the calls are the
specifier and, up to where the search stops, what its answer leads to. -/
theorem resolve_path_flat (hpath : Specifier.isPath specifier = true) (hdot : specifier ≠ ".")
    (hdots : specifier ≠ "..") (hd : Specifier.isDirectory specifier = false)
    (hc : c.parentIsSource = false) :
    resolve s next specifier c = showing specifier (flatSearch s next specifier c) ∧
      ∀ st, ∃ first rest, (observe s next specifier c st).2 = first :: rest ∧
        first.specifier = specifier ∧ AskedUpTo (further specifier first.answer) rest := by
  have hp := Specifier.hasPathFront_of_isPath hpath hdot hdots
  refine ⟨resolve_eq_showing_flatSearch hc hp hd, fun st => ?_⟩
  obtain ⟨first, rest, hcalls, hfirst, hasked⟩ :=
    flatSearch_calls s next specifier c ⟨st.packages, (st.host, [])⟩
  refine ⟨first, rest, ?_, hfirst, hasked⟩
  rw [observe, resolve_eq_showing_flatSearch hc hp hd, showing, run_tryCatch]
  rcases hrun : flatSearch s (recorded next) specifier c ⟨st.packages, (st.host, [])⟩ with
    ⟨_ | _, after⟩ <;> simpa [hrun] using hcalls

/-- The flat search for a path that the host takes for a directory. -/
theorem resolve_path_flat_directory :
    let s := Session.withoutProjects {} { cwd := ⟨"/"⟩ }
    let next : Resolver Unit := fun specifier c =>
      throw (.unsupportedDirectory specifier specifier c.parent)
    (Specifier.isPath "./a" = true ∧ "./a" ≠ "." ∧ "./a" ≠ ".." ∧
      Specifier.isDirectory "./a" = false ∧ ({} : Context).parentIsSource = false) ∧
    resolve s next "./a" {} = showing "./a" (flatSearch s next "./a" {}) ∧
      ∀ st, ∃ first rest, (observe s next "./a" {} st).2 = first :: rest ∧
        first.specifier = "./a" ∧ AskedUpTo (further "./a" first.answer) rest := by
  have hpath : Specifier.isPath "./a" = true := by decide +kernel
  have hd : Specifier.isDirectory "./a" = false := by decide +kernel
  exact ⟨⟨hpath, by decide, by decide, hd, rfl⟩,
    resolve_path_flat hpath (by decide) (by decide) hd rfl⟩

end ScriptModules.Resolve.Search

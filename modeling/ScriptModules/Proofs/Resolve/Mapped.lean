import ScriptModules.Proofs.Resolve.Asked
import ScriptModules.Proofs.Resolve.Nesting

/-!
# Names that are mapped to files

The files that a name is mapped to are resolved one after the other, each as a search of its own.
The first search that does not fail recoverably decides: its outcome is that of the name, and the
calls of the searches up to it are all that the host is asked.
-/

namespace ScriptModules.Resolve.Search

open Specifier (hasPathFront withoutNodePrefix)

variable {σ : Type} {s : Session} {next : Resolver σ} {c : Context} {specifier : String}

/-- A state with more calls before those in its record. -/
def prepend (earlier : List Call) (st : State (σ × List Call)) : State (σ × List Call) :=
  ⟨st.packages, (st.host.1, earlier ++ st.host.2)⟩

/-- A step that does the same whatever calls are in the record before. -/
def Unmoved (m : Step (σ × List Call) Target) : Prop :=
  ∀ earlier st, m (prepend earlier st) = ((m st).1, prepend earlier (m st).2)

/-- Searches only add to the record. -/
theorem simulation_unmoved (s : Session) (next : Resolver σ) (c : Context) :
    Simulation s s (recorded next) (recorded next) c
      fun m (_ : Step (σ × List Call) Target) => Unmoved m where
  fails _ _ _ _ := rfl
  catches := by
    intro m _ handle _ hm h earlier st
    rw [run_tryCatch, run_tryCatch, hm earlier st]
    rcases m st with ⟨f | t, after⟩
    · exact h.rel (fun _ _ _ => rfl) f earlier after
    · rfl
  asks := by
    intro specifier failed _ h earlier st
    have hforget : forget (prepend earlier st) = forget st := rfl
    rw [run_askOr, run_askOr]
    simp only [recorded, hforget]
    rcases next specifier c (forget st) with ⟨f | t, after⟩
    · have hfailed := h.rel (fun _ _ _ => rfl) f earlier
        ⟨after.packages, (after.host, st.host.2 ++ [⟨specifier, .error f, after.packages⟩])⟩
      simpa [prepend] using hfailed
    · simp [run_decideFormat, prepend]

/-- A search over a host with a record gives the outcome of the search, and adds the calls that
are observed to the record. -/
theorem run_resolve_recorded (s : Session) (next : Resolver σ) (specifier : String) (c : Context)
    (st : State σ) (calls : List Call) :
    resolve s (recorded next) specifier c ⟨st.packages, (st.host, calls)⟩ =
      ((resolve s next specifier c st).1,
        ⟨(resolve s next specifier c st).2.packages, ((resolve s next specifier c st).2.host,
          calls ++ (observe s next specifier c st).2)⟩) := by
  have hunmoved := (simulation_unmoved s next c).resolveWithin depthLimit specifier .allowed calls
    ⟨st.packages, (st.host, [])⟩
  have hrecords := (simulation_records s next c).resolveWithin depthLimit specifier .allowed
    ⟨st.packages, (st.host, [])⟩
  simp only [prepend, List.append_nil] at hunmoved
  simp only [forget] at hrecords
  rw [observe, run_resolve, run_resolve, run_resolve, hunmoved, hrecords]

/-- Candidates that fail recoverably one after the other, from one state to another. -/
inductive Exhausted (s : Session) (next : Resolver σ) (c : Context) :
    List String → State σ → State σ → Prop
  | none {st} : Exhausted s next c [] st st
  | further {u rest st after f} : (resolve s next u c st).1 = .error f → f.isRecoverable = true →
      Exhausted s next c rest (resolve s next u c st).2 after →
      Exhausted s next c (u :: rest) st after

/-- The calls that are made when candidates are resolved one after the other. -/
def callsInOrder (s : Session) (next : Resolver σ) (c : Context) :
    List String → State σ → List Call
  | [], _ => []
  | u :: rest, st =>
    (observe s next u c st).2 ++ callsInOrder s next c rest (resolve s next u c st).2

/-- The calls for one more candidate are those for it after all others failed. -/
theorem callsInOrder_append_singleton {urls : List String} {st after : State σ}
    (h : Exhausted s next c urls st after) (u : String) :
    callsInOrder s next c (urls ++ [u]) st =
      callsInOrder s next c urls st ++ (observe s next u c after).2 := by
  induction h with
  | none => simp [callsInOrder]
  | further _ _ _ ih => rw [List.cons_append, callsInOrder, callsInOrder, ih, List.append_assoc]

/-- With a record, the same candidates fail, and their calls are in the record after that. -/
theorem Exhausted.recorded {urls : List String} {st after : State σ}
    (h : Exhausted s next c urls st after) (calls : List Call) :
    Exhausted s (recorded next) c urls ⟨st.packages, (st.host, calls)⟩
      ⟨after.packages, (after.host, calls ++ callsInOrder s next c urls st)⟩ := by
  induction h generalizing calls with
  | none => simpa [callsInOrder] using Exhausted.none
  | @further u rest st after f hfails hf _ ih =>
    have hrun := run_resolve_recorded s next u c st calls
    refine .further (f := f) (by rw [hrun, hfails]) hf ?_
    rw [hrun, callsInOrder, ← List.append_assoc]
    exact ih _

/-- Candidates that fail recoverably are passed over. -/
theorem Exhausted.firstOr_append {urls : List String} {st after : State σ}
    (h : Exhausted s next c urls st after) (last : Step σ Target) (more : List String) :
    firstOr (resolveWithin s next c depthLimit · .allowed) Fault.isRecoverable last (urls ++ more)
        st =
      firstOr (resolveWithin s next c depthLimit · .allowed) Fault.isRecoverable last more
        after := by
  induction h with
  | none => rfl
  | @further u rest st after f hfails hf _ ih =>
    rw [run_resolve] at hfails ih
    rw [List.cons_append, firstOr, run_tryCatch]
    rcases hrun : resolveWithin s next c depthLimit u .allowed st with ⟨g | t, between⟩ <;>
      rw [hrun] at hfails ih
    · obtain rfl := Except.error.inj hfails
      rw [Fault.isRecoverable_relabel] at hf
      simp only [hf, if_true]
      exact ih
    · cases hfails

/-- A name is resolved as the first of the files it is mapped to that does not fail recoverably. -/
theorem resolve_of_mapped {earlier later : List String} {u : String} {st between : State σ}
    (hd : Specifier.isDirectory (withoutNodePrefix s.capabilities specifier) = false)
    (hurls : mappedUrls s (withoutNodePrefix s.capabilities specifier) c = earlier ++ u :: later)
    (hearlier : Exhausted s next c earlier st between)
    (hu : ∀ f, (resolve s next u c between).1 = .error f → f.isRecoverable = false) :
    resolve s next specifier c st =
      ((resolve s next u c between).1.mapError (Fault.relabel specifier),
        (resolve s next u c between).2) := by
  have hattempt : resolveWithin s next c depthLimit specifier .allowed =
      firstOr (resolveWithin s next c depthLimit · .allowed) Fault.isRecoverable
        (searchUnmapped s next (resolveWithin s next c depthLimit)
          (withoutNodePrefix s.capabilities specifier) c .allowed) (earlier ++ u :: later) := by
    rw [solves_resolveWithin, attempt_eq, ← hurls]
    dsimp only
    rw [hd, if_neg Bool.false_ne_true]
  rw [run_resolve, hattempt, hearlier.firstOr_append, firstOr, run_tryCatch]
  rw [run_resolve] at hu ⊢
  rcases hrun : resolveWithin s next c depthLimit u .allowed between with ⟨f | t, after⟩ <;>
    rw [hrun] at hu
  · have hf : f.isRecoverable = false := by simpa using hu _ rfl
    simp [hf, Except.mapError]
  · rfl

/-- All calls for candidates that are paths are for paths. -/
theorem hasPathFront_of_mem_callsInOrder {urls : List String}
    (hp : ∀ u ∈ urls, hasPathFront u = true) {st : State σ} {call : Call}
    (h : call ∈ callsInOrder s next c urls st) : hasPathFront call.specifier = true := by
  induction urls generalizing st with
  | nil => simp [callsInOrder] at h
  | cons u rest ih =>
    rcases List.mem_append.mp h with h | h
    · exact hasPathFront_of_mem_observe (hp u List.mem_cons_self) h
    · exact ih (fun v hv => hp v (List.mem_cons_of_mem _ hv)) h

/-- The URLs of paths, but for those that have none. -/
def urlsOf (paths : List Path) : List String :=
  paths.filterMap fun p => (Url.ofPath? p).map Url.text

/-- What a name is mapped to, where a configuration applies. -/
theorem mappedUrls_eq {name : String} {config : Project.Config}
    (hbare : Specifier.isBare name = true) (hvendored : Specifier.isVendored c.parent = false)
    (hconfig : mappingConfig? s c = some config) :
    mappedUrls s name c = urlsOf (config.candidates name) := by
  simp [mappedUrls, urlsOf, hbare, hvendored, hconfig]

/-- What resolving a file that a name is mapped to does when it decides about the name: its outcome,
shown for the name, and the state that it leaves are those of the name, and the host is asked what
it is asked for the files up to this one, which are paths, and nothing else. -/
theorem resolve_first_mapped {name : String} {config : Project.Config} {earlier later : List Path}
    {p : Path} {u : Url} {st between : State σ}
    (hname : withoutNodePrefix s.capabilities specifier = name)
    (hbare : Specifier.isBare name = true) (hd : Specifier.isDirectory name = false)
    (hvendored : Specifier.isVendored c.parent = false)
    (hconfig : mappingConfig? s c = some config)
    (hcandidates : config.candidates name = earlier ++ p :: later)
    (hearlier : Exhausted s next c (urlsOf earlier) st between)
    (hurl : Url.ofPath? p = some u)
    (hdecides : ∀ f, (resolve s next u.text c between).1 = .error f → f.isRecoverable = false) :
    resolve s next specifier c st =
        ((resolve s next u.text c between).1.mapError (Fault.relabel specifier),
          (resolve s next u.text c between).2) ∧
      (observe s next specifier c st).2 = callsInOrder s next c (urlsOf (earlier ++ [p])) st ∧
      ∀ call ∈ (observe s next specifier c st).2,
        Specifier.isPath call.specifier = true ∧ call.specifier ≠ name ∧
          call.specifier ≠ specifier := by
  subst hname
  have hsplit (more : List Path) :
      urlsOf (earlier ++ p :: more) = urlsOf earlier ++ u.text :: urlsOf more := by
    simp [urlsOf, hurl]
  have hurls : mappedUrls s (withoutNodePrefix s.capabilities specifier) c =
      urlsOf earlier ++ u.text :: urlsOf later := by
    rw [mappedUrls_eq hbare hvendored hconfig, hcandidates, hsplit]
  have hcalls : (observe s next specifier c st).2 =
      callsInOrder s next c (urlsOf (earlier ++ [p])) st := by
    have hrun := run_resolve_recorded s next u.text c between
      ([] ++ callsInOrder s next c (urlsOf earlier) st)
    have hdecides' : ∀ f, (resolve s (recorded next) u.text c ⟨between.packages, (between.host,
        [] ++ callsInOrder s next c (urlsOf earlier) st)⟩).1 = .error f →
          f.isRecoverable = false := by
      rw [hrun]
      exact hdecides
    have hrecorded := resolve_of_mapped hd hurls (hearlier.recorded []) hdecides'
    rw [observe, hrecorded, hrun, hsplit, List.nil_append]
    exact (callsInOrder_append_singleton hearlier u.text).symm
  refine ⟨resolve_of_mapped hd hurls hearlier hdecides, hcalls, fun call hcall => ?_⟩
  have hpaths : ∀ v ∈ urlsOf (earlier ++ [p]), hasPathFront v = true := by
    intro v hv
    obtain ⟨q, -, hq⟩ := List.mem_filterMap.mp hv
    obtain ⟨url, hurl, rfl⟩ := Option.map_eq_some_iff.mp hq
    exact Specifier.hasPathFront_of_ofPath? hurl
  have hfront : hasPathFront call.specifier = true := by
    rw [hcalls] at hcall
    exact hasPathFront_of_mem_callsInOrder hpaths hcall
  have hname : call.specifier ≠ withoutNodePrefix s.capabilities specifier := by
    intro heq
    rw [heq] at hfront
    simp [Specifier.isBare, Specifier.isPath_of_hasPathFront hfront] at hbare
  refine ⟨Specifier.isPath_of_hasPathFront hfront, hname, fun heq => hname ?_⟩
  rw [heq] at hfront
  rw [heq, Specifier.withoutNodePrefix_of_hasPathFront hfront]

/-- A registry whose only project maps names of one pattern to several files. -/
def mappingToEach (pattern : String) (targets : List String) : Project.Registry where
  projects := (mappingBy pattern "").projects.map fun config =>
    { config with mappings := [Project.mappingOf ⟨"/w"⟩ pattern targets] }

/-- The second of three files decides about a name where the first is missing. -/
theorem resolve_first_mapped_second :
    let s : Session := { Session.withoutProjects {} { cwd := ⟨"/w"⟩ } with
      projects := mappingToEach "m" ["gone", "a", "b"] }
    let next : Resolver Unit := answering (onlyModule "file:///w/a.js")
    let between := (resolve s next "file:///w/gone" {} ⟨{}, ()⟩).2
    resolve s next "m" {} ⟨{}, ()⟩ =
        ((resolve s next "file:///w/a" {} between).1.mapError (Fault.relabel "m"),
          (resolve s next "file:///w/a" {} between).2) ∧
      (observe s next "m" {} ⟨{}, ()⟩).2 =
        callsInOrder s next {} ["file:///w/gone", "file:///w/a"] ⟨{}, ()⟩ ∧
      ∀ call ∈ (observe s next "m" {} ⟨{}, ()⟩).2,
        Specifier.isPath call.specifier = true ∧ call.specifier ≠ "m" ∧ call.specifier ≠ "m" := by
  intro s next between
  have hconfig : (mappingConfig? s {}).map (·.candidates "m") =
      some [⟨"/w/gone"⟩, ⟨"/w/a"⟩, ⟨"/w/b"⟩] := by decide +kernel
  obtain ⟨config, hconfig, hcandidates⟩ := Option.map_eq_some_iff.mp hconfig
  have hgone : (resolve s next "file:///w/gone" {} ⟨{}, ()⟩).1 =
      .error (.notFound "file:///w/gone" "file:///w/gone.js" none) := by decide +kernel
  have hfound : (resolve s next "file:///w/a" {} between).1.isOk = true := by decide +kernel
  have hearlierUrls : urlsOf [⟨"/w/gone"⟩] = ["file:///w/gone"] := by decide +kernel
  have hurls : urlsOf ([⟨"/w/gone"⟩] ++ [⟨"/w/a"⟩]) = ["file:///w/gone", "file:///w/a"] := by
    decide +kernel
  have hurl : (Url.ofPath? ⟨"/w/a"⟩).map Url.text = some "file:///w/a" := by decide +kernel
  obtain ⟨u, hurl, htext⟩ := Option.map_eq_some_iff.mp hurl
  have hname : withoutNodePrefix s.capabilities "m" = "m" := by decide +kernel
  have hearlier : Exhausted s next {} (urlsOf [⟨"/w/gone"⟩]) ⟨{}, ()⟩ between := by
    rw [hearlierUrls]
    exact .further hgone (by decide) .none
  clear_value between next s
  rw [← hurls]
  rw [← htext] at hfound ⊢
  refine resolve_first_mapped hname (by decide +kernel) (by decide +kernel) (by decide) hconfig
    hcandidates hearlier hurl fun f hf => ?_
  rw [hf] at hfound
  cases hfound

/-- A name that a host without the prefix of built-in modules takes for a path is not mapped, and a
file behind the one that decides may be asked for on the way to that one. -/
theorem not_forall_resolve_first_mapped :
    (¬ ∀ (s : Session) (next : Resolver Unit) (specifier : String) (c : Context)
        (config : Project.Config) (p : Path) (later : List Path) (u : Url) (st : State Unit),
      Specifier.isBare specifier = true → Specifier.isDirectory specifier = false →
      Specifier.isVendored c.parent = false → mappingConfig? s c = some config →
      config.candidates specifier = p :: later → Url.ofPath? p = some u →
      (∀ f, (resolve s next u.text c st).1 = .error f → f.isRecoverable = false) →
      (resolve s next specifier c st).1 =
        (resolve s next u.text c st).1.mapError (Fault.relabel specifier)) ∧
    ¬ ∀ (s : Session) (next : Resolver Unit) (specifier : String) (c : Context)
        (config : Project.Config) (p : Path) (later : List Path) (u : Url) (st : State Unit),
      Specifier.isBare specifier = true → Specifier.isDirectory specifier = false →
      Specifier.isVendored c.parent = false → mappingConfig? s c = some config →
      config.candidates specifier = p :: later → Url.ofPath? p = some u →
      (∀ f, (resolve s next u.text c st).1 = .error f → f.isRecoverable = false) →
      ∀ call ∈ (observe s next specifier c st).2, call.specifier ∉ urlsOf later := by
  have hcounts {x : Except Fault Target} (hx : x.isOk = true) :
      ∀ f, x = .error f → f.isRecoverable = false := by
    rintro f rfl
    cases hx
  constructor
  · intro h
    let s : Session := { Session.withoutProjects {} { cwd := ⟨"/w"⟩ } with
      capabilities := { nodePrefix := false }
      projects := mappingBy "*" "mapped.js" }
    let next : Resolver Unit := answering (onlyModule "file:///w/mapped.js")
    have hconfig : (mappingConfig? s {}).map (·.candidates "node://[") =
        some [⟨"/w/mapped.js"⟩] := by decide +kernel
    obtain ⟨config, hconfig, hcandidates⟩ := Option.map_eq_some_iff.mp hconfig
    have heq := h s next "node://[" {} config _ [] _ ⟨{}, ()⟩ (by decide +kernel)
      (by decide +kernel) rfl hconfig hcandidates rfl (hcounts (by decide +kernel))
    exact absurd heq (by decide +kernel)
  · intro h
    let s : Session := { Session.withoutProjects {} { cwd := ⟨"/w"⟩ } with
      projects := mappingToEach "m" ["a", "a.js"] }
    let next : Resolver Unit := answering (onlyModule "file:///w/a.js")
    have hconfig : (mappingConfig? s {}).map (·.candidates "m") =
        some [⟨"/w/a"⟩, ⟨"/w/a.js"⟩] := by decide +kernel
    obtain ⟨config, hconfig, hcandidates⟩ := Option.map_eq_some_iff.mp hconfig
    have hnot := h s next "m" {} config _ _ _ ⟨{}, ()⟩ (by decide +kernel)
      (by decide +kernel) rfl hconfig hcandidates rfl (hcounts (by decide +kernel))
    have hasked : (observe s next "m" {} ⟨{}, ()⟩).2.any (·.specifier == "file:///w/a.js") := by
      decide +kernel
    obtain ⟨call, hcall, hspecifier⟩ := List.any_eq_true.mp hasked
    refine hnot call hcall ?_
    rw [beq_iff_eq.mp hspecifier]
    decide +kernel

end ScriptModules.Resolve.Search

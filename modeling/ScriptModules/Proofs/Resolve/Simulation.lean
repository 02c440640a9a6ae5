import ScriptModules.Proofs.Resolve.Steps

/-!
# Comparing searches

A search fails, catches what is recoverable, and asks its host. A relation that these three keep
relates two searches as soon as it relates their candidates.
-/

namespace ScriptModules.Resolve.Search

variable {σ τ : Type}

/-- The forms that a search derives from a specifier: its sources, the index of a directory, and
the specifier with an extension. -/
inductive Derived (c : Context) (specifier : String) (fallback : Fallback) : String → Prop
  | source {form : String} : Specifier.isDirectory specifier = false →
      form ∈ prioritySources specifier c → Derived c specifier fallback form
  | index {extension : String} : Specifier.isDirectory specifier = true →
      extension ∈ extensions → Derived c specifier fallback (specifier ++ "index" ++ extension)
  | indexBelow {extension : String} : Specifier.isDirectory specifier = false →
      fallback = .allowed → extension ∈ extensions →
      Derived c specifier fallback (specifier ++ "/index" ++ extension)
  | extended {extension : String} : Specifier.isDirectory specifier = false →
      fallback = .allowed → extension ∈ extensions →
      Derived c specifier fallback (specifier ++ extension)

/-- Two ways to go on after a failure. Both pass on what is not recoverable. -/
structure Handlers (R : Step σ Target → Step τ Target → Prop) (handle : Fault → Step σ Target)
    (handle' : Fault → Step τ Target) : Prop where
  recovers : ∀ f, f.isRecoverable = true → R (handle f) (handle' f)
  passes : ∀ f, f.isRecoverable = false → handle f = throw f ∧ handle' f = throw f

/-- Where passing on a failure is always related, handlers are related for every failure. -/
theorem Handlers.rel {R : Step σ Target → Step τ Target → Prop} {handle : Fault → Step σ Target}
    {handle' : Fault → Step τ Target} (h : Handlers R handle handle')
    (hthrow : ∀ f, R (throw f) (throw f)) (f : Fault) : R (handle f) (handle' f) := by
  cases hf : f.isRecoverable with
  | true => exact h.recovers f hf
  | false =>
    rw [(h.passes f hf).1, (h.passes f hf).2]
    exact hthrow f

/-- A relation that searches in two sessions keep, step by step. -/
structure Simulation (s s' : Session) (next : Resolver σ) (next' : Resolver τ) (c : Context)
    (R : Step σ Target → Step τ Target → Prop) : Prop where
  fails : ∀ f, f.isRecoverable = true → R (throw f) (throw f)
  catches : ∀ {m m' handle handle'}, R m m' → Handlers R handle handle' →
    R (tryCatch m handle) (tryCatch m' handle')
  asks : ∀ specifier {failed failed'}, Handlers R failed failed' →
    R (askOr s next specifier c failed) (askOr s' next' specifier c failed')

namespace Simulation

variable {s s' : Session} {next : Resolver σ} {next' : Resolver τ} {c : Context}
  {R : Step σ Target → Step τ Target → Prop} {again : Again σ} {again' : Again τ}

/-- The first of some candidates is kept if each of them and what comes last are. -/
theorem firstOr (h : Simulation s s' next next' c R) {attempt : String → Step σ Target}
    {attempt' : String → Step τ Target} {skips : Fault → Bool}
    (hskips : ∀ f, skips f = true → f.isRecoverable = true) {last : Step σ Target}
    {last' : Step τ Target} (hlast : R last last') {candidates : List String}
    (hcandidates : ∀ x ∈ candidates, R (attempt x) (attempt' x)) :
    R (Search.firstOr attempt skips last candidates)
      (Search.firstOr attempt' skips last' candidates) := by
  induction candidates with
  | nil => exact hlast
  | cons x rest ih =>
    have hrest := ih fun y hy => hcandidates y (List.mem_cons_of_mem _ hy)
    refine h.catches (hcandidates x List.mem_cons_self) ⟨fun f hf => ?_, fun f hf => ?_⟩
    · by_cases hskip : skips f = true
      · simpa only [hskip, ite_true] using hrest
      · simpa only [hskip, Bool.false_eq_true, ite_false] using h.fails f hf
    · have hskip : ¬ skips f = true := fun hs => by simp [hskips f hs] at hf
      simp [hskip]

/-- Trying candidates is kept if each of them is. -/
theorem tryEach (h : Simulation s s' next next' c R) (shown : String) {candidates : List String}
    (hcandidates : ∀ x ∈ candidates, R (again x .nested) (again' x .nested)) {first? : Option Fault}
    (hfirst : ∀ f ∈ first?, f.isRecoverable = true) :
    R (Search.tryEach again shown candidates first? c)
      (Search.tryEach again' shown candidates first? c) := by
  induction candidates generalizing first? with
  | nil =>
    refine h.fails _ ?_
    cases first? with
    | none => exact Fault.isRecoverable_missing _ _
    | some f => exact hfirst f rfl
  | cons x rest ih =>
    refine h.catches (hcandidates x List.mem_cons_self) ⟨fun f hf => ?_, fun f hf => ?_⟩
    · simp only [hf, ite_true]
      refine ih (fun y hy => hcandidates y (List.mem_cons_of_mem _ hy)) fun g hg => ?_
      obtain rfl := Option.some.inj hg
      cases first? with
      | none => simpa using hf
      | some f => exact hfirst f rfl
    · simp [hf]

/-- Probing extensions is kept if the specifier with each of them is. -/
theorem probeExtensions (h : Simulation s s' next next' c R) {specifier : String}
    (hagain : ∀ e ∈ extensions,
      R (again (specifier ++ e) .nested) (again' (specifier ++ e) .nested)) :
    R (Search.probeExtensions again specifier c) (Search.probeExtensions again' specifier c) := by
  refine h.tryEach specifier (fun x hx => ?_) (by simp)
  obtain ⟨e, he, rfl⟩ := List.mem_map.mp hx
  exact hagain e he

/-- Probing a directory is kept if its forms are. -/
theorem probeDirectory (h : Simulation s s' next next' c R) {specifier : String}
    {fallback : Fallback} (hallowed : fallback = .allowed ∨ Specifier.isDirectory specifier = true)
    (hagain : ∀ x, Derived c specifier fallback x → R (again x .nested) (again' x .nested)) :
    R (Search.probeDirectory again specifier c) (Search.probeDirectory again' specifier c) := by
  unfold Search.probeDirectory
  split
  · rename_i hd
    refine h.catches (h.probeExtensions fun e he => hagain _ (.index hd he)) ⟨?_, ?_⟩
    · intro f hf
      simpa only [hf, ite_true] using h.fails _ (by simpa using hf)
    · intro f hf
      simp [hf]
  · rename_i hd
    have hf' : fallback = .allowed := hallowed.resolve_right hd
    have hd' : Specifier.isDirectory specifier = false := by simpa using hd
    refine h.catches (h.probeExtensions fun e he => hagain _ (.indexBelow hd' hf' he)) ⟨?_, ?_⟩
    · intro f hf
      simp only [hf, ite_true]
      refine h.catches (h.probeExtensions fun e he => hagain _ (.extended hd' hf' he)) ⟨?_, ?_⟩
      · intro g hg
        simpa only [hg, ite_true] using h.fails _ (by simpa using hf)
      · intro g hg
        simp [hg]
    · intro f hf
      simp [hf]

/-- What is done after the host failed passes on what is not recoverable. -/
theorem recover (h : Simulation s s' next next' c R) {specifier : String} {fallback : Fallback}
    (hd : Specifier.isDirectory specifier = false)
    (hagain : ∀ x, Derived c specifier fallback x → R (again x .nested) (again' x .nested)) :
    Handlers R (Search.recover again specifier c fallback)
      (Search.recover again' specifier c fallback) := by
  refine ⟨fun f hf => ?_, fun f hf => ?_⟩
  · unfold Search.recover
    split
    · exact h.fails f hf
    · rename_i hn
      have hallowed : fallback = .allowed := by cases fallback <;> simp_all
      split
      · refine h.catches (h.probeDirectory (Or.inl hallowed) hagain)
          ⟨fun g hg => ?_, fun g hg => ?_⟩
        · split
          · exact h.fails f hf
          · exact h.fails g hg
        · have hk : (g.kind == .importNotDefined) = false := by
            cases g <;> simp_all [Fault.isRecoverable, Fault.kind]
          simp [hk]
      · exact h.probeExtensions fun e he => hagain _ (.extended hd hallowed he)
      · exact h.fails f hf
  · unfold Search.recover
    cases f <;> simp_all [Fault.isRecoverable, Fault.kind]

/-- What is done without a mapping is kept if the forms of the specifier are. -/
theorem searchUnmapped (h : Simulation s s' next next' c R) {specifier : String}
    {fallback : Fallback} (hd : Specifier.isDirectory specifier = false)
    (hagain : ∀ x, Derived c specifier fallback x → R (again x .nested) (again' x .nested)) :
    R (Search.searchUnmapped s next again specifier c fallback)
      (Search.searchUnmapped s' next' again' specifier c fallback) := by
  refine h.firstOr (fun f hf => ?_) (h.asks specifier (h.recover hd hagain))
    fun x hx => hagain x (.source hd hx)
  unfold skipsSource at hf
  cases f <;> simp_all [Fault.isRecoverable, Fault.kind]

/-- Attempts are related when what they go on to is. -/
theorem attempt (h : Simulation s s' next next' c R) {specifier : String} {fallback : Fallback}
    (hcapabilities : s'.capabilities = s.capabilities)
    (hmapped : mappedUrls s' (Specifier.withoutNodePrefix s.capabilities specifier) c =
      mappedUrls s (Specifier.withoutNodePrefix s.capabilities specifier) c)
    (hurls : ∀ u ∈ mappedUrls s (Specifier.withoutNodePrefix s.capabilities specifier) c,
      R (again u .allowed) (again' u .allowed))
    (hagain : ∀ x, Derived c (Specifier.withoutNodePrefix s.capabilities specifier) fallback x →
      R (again x .nested) (again' x .nested)) :
    R (Search.attempt s next again specifier c fallback)
      (Search.attempt s' next' again' specifier c fallback) := by
  rw [attempt_eq, attempt_eq, hcapabilities]
  dsimp only
  split
  · rename_i hd
    exact h.probeDirectory (Or.inr hd) hagain
  · rename_i hd
    rw [hmapped]
    exact h.firstOr (fun _ hf => hf) (h.searchUnmapped (by simpa using hd) hagain) hurls

/-- An attempt has a property that steps keep when what it goes on to has it. -/
theorem attempt_alone {P : Step σ Target → Prop}
    (h : Simulation s s next next c fun m (_ : Step σ Target) => P m) {specifier : String}
    {fallback : Fallback}
    (hurls : ∀ u ∈ mappedUrls s (Specifier.withoutNodePrefix s.capabilities specifier) c,
      P (again u .allowed))
    (hagain : ∀ x, Derived c (Specifier.withoutNodePrefix s.capabilities specifier) fallback x →
      P (again x .nested)) :
    P (Search.attempt s next again specifier c fallback) :=
  @attempt _ _ _ _ _ _ _ _ again again h specifier fallback rfl rfl hurls hagain

/-- Searches in one session are related at every depth. -/
theorem resolveWithin (h : Simulation s s next next' c R) (depth : Nat) (specifier : String)
    (fallback : Fallback) :
    R (Search.resolveWithin s next c depth specifier fallback)
      (Search.resolveWithin s next' c depth specifier fallback) := by
  induction depth generalizing specifier fallback with
  | zero => exact h.fails _ (Fault.isRecoverable_missing _ _)
  | succ depth ih => exact h.attempt rfl rfl (fun u _ => ih u .allowed) fun x _ => ih x .nested

end Simulation

/-- Searches that differ in their projects alone are the same step by step. -/
theorem Simulation.eq (s : Session) (p q : Project.Registry) (next : Resolver σ) (c : Context) :
    Simulation { s with projects := p } { s with projects := q } next next c (· = ·) where
  fails _ _ := rfl
  catches := by
    rintro m m' handle handle' rfl h
    rw [funext (h.rel fun _ => rfl)]
  asks := by
    intro specifier failed failed' h
    rw [funext (h.rel fun _ => rfl)]
    funext st
    rw [run_askOr, run_askOr]
    rfl

end ScriptModules.Resolve.Search

import ScriptModules.Proofs.Resolve.Mapping

/-!
# Attempts inside one another

An attempt takes up further attempts: at sources, at forms with an extension, and at the files that
a name is mapped to. Whatever comes of these, each has a lower rank than the attempt that takes it
up. So at most six attempts lie inside one another, and the recursion of the search determines it
without any limit on its depth.
-/

namespace ScriptModules.Resolve.Search

variable {σ τ α : Type} {s : Session} {next : Resolver σ} {c : Context}

/-- One attempt at a specifier. -/
structure Activation where
  specifier : String
  fallback : Fallback
  deriving DecidableEq, Repr

namespace Activation

/-- How many attempts can lie inside one another from this one on. -/
def rank (s : Session) (a : Activation) : Nat := Search.rank s a.specifier a.fallback

end Activation

/-- A step that leaves alone what is kept next to the state of its host. -/
def beside (m : Step σ α) : Step (σ × τ) α := fun st =>
  let (answer, after) := m ⟨st.packages, st.host.1⟩
  (answer, ⟨after.packages, (after.host, st.host.2)⟩)

/-- A host next to whose state something is kept. -/
def hostBeside (next : Resolver σ) : Resolver (σ × τ) := fun specifier c =>
  beside (next specifier c)

/-- Candidates that are noted before they are resolved. -/
def noted (again : Again σ) : Again (σ × List Activation) := fun specifier fallback => do
  modify fun st => { st with host := (st.host.1, st.host.2 ++ [⟨specifier, fallback⟩]) }
  beside (again specifier fallback)

/-- The attempts that one attempt takes up, given how these end. -/
def takenUp (s : Session) (next : Resolver σ) (again : Again σ) (c : Context) (a : Activation)
    (st : State σ) : List Activation :=
  (attempt s (hostBeside next) (noted again) a.specifier c a.fallback
    ⟨st.packages, (st.host, [])⟩).2.host.2

/-- An attempt takes up another in some state, however the attempts that it takes up end. -/
def TakesUp (s : Session) (next : Resolver σ) (c : Context) (a inner : Activation) : Prop :=
  ∃ again st, inner ∈ takenUp s next again c a st

/-- A step that does the same as another, and keeps notes next to it. -/
def Notes (m : Step σ Target) (m' : Step (σ × List Activation) Target) : Prop :=
  ∀ st, m ⟨st.packages, st.host.1⟩ = ((m' st).1, ⟨(m' st).2.packages, (m' st).2.host.1⟩)

/-- Keeping notes changes nothing about an attempt. -/
theorem simulation_notes (s : Session) (next : Resolver σ) (c : Context) :
    Simulation s s next (hostBeside next) c (Notes (σ := σ)) where
  fails _ _ _ := rfl
  catches := by
    intro m m' handle handle' hm h st
    rw [run_tryCatch, run_tryCatch, hm st]
    rcases m' st with ⟨f | t, after⟩
    · exact h.rel (fun _ _ => rfl) f after
    · rfl
  asks := by
    intro specifier failed failed' h st
    rw [run_askOr, run_askOr]
    simp only [hostBeside, beside]
    rcases next specifier c ⟨st.packages, st.host.1⟩ with ⟨f | t, after⟩
    · exact h.rel (fun _ _ => rfl) f ⟨after.packages, (after.host, st.host.2)⟩
    · simp only [run_decideFormat]

/-- What is taken up is taken up by the attempt itself: noting it changes nothing. -/
theorem notes_attempt (again : Again σ) (a : Activation) :
    Notes (attempt s next again a.specifier c a.fallback)
      (attempt s (hostBeside next) (noted again) a.specifier c a.fallback) :=
  (simulation_notes s next c).attempt rfl rfl (fun _ _ _ => rfl) fun _ _ _ => rfl

/-- A step that only adds notes of attempts with a property. -/
def NotesOnly (P : Activation → Prop) (m : Step (σ × List Activation) Target) : Prop :=
  ∀ st, ∃ more, (m st).2.host.2 = st.host.2 ++ more ∧ ∀ a ∈ more, P a

/-- To fail notes nothing. -/
theorem notesOnly_throw (P : Activation → Prop) (f : Fault) :
    NotesOnly P (throw f : Step (σ × List Activation) Target) :=
  fun _ => ⟨[], (List.append_nil _).symm, by simp⟩

/-- A candidate that is noted adds itself and no other. -/
theorem notesOnly_noted {P : Activation → Prop} {specifier : String} {fallback : Fallback}
    (h : P ⟨specifier, fallback⟩) (again : Again σ) :
    NotesOnly P (noted again specifier fallback) :=
  fun _ => ⟨[⟨specifier, fallback⟩], rfl, by simpa using h⟩

/-- Everything that a search is made of notes only attempts with the property if the candidates do.
-/
theorem simulation_notesOnly (s : Session) (next : Resolver σ) (c : Context)
    (P : Activation → Prop) :
    Simulation s s (hostBeside next) (hostBeside next) c
      fun m (_ : Step (σ × List Activation) Target) => NotesOnly P m where
  fails f _ := notesOnly_throw P f
  catches := by
    intro m _ handle _ hm h st
    obtain ⟨first, hfirst, hP⟩ := hm st
    rw [run_tryCatch]
    rcases hrun : m st with ⟨f | t, after⟩ <;> rw [hrun] at hfirst
    · obtain ⟨more, hmore, hP'⟩ := h.rel (notesOnly_throw P) f after
      refine ⟨first ++ more, ?_, fun a ha => ?_⟩
      · exact hmore.trans (by rw [hfirst, List.append_assoc])
      · exact (List.mem_append.mp ha).elim (hP a) (hP' a)
    · exact ⟨first, hfirst, hP⟩
  asks := by
    intro specifier failed _ h st
    rw [run_askOr]
    simp only [hostBeside, beside]
    rcases next specifier c ⟨st.packages, st.host.1⟩ with ⟨f | t, after⟩
    · exact h.rel (notesOnly_throw P) f ⟨after.packages, (after.host, st.host.2)⟩
    · simp only [run_decideFormat]
      exact ⟨[], by simp, by simp⟩

/-- Whatever an attempt takes up has a lower rank. -/
theorem TakesUp.rank_lt {a inner : Activation} (h : TakesUp s next c a inner) :
    inner.rank s < a.rank s := by
  obtain ⟨again, st, hmem⟩ := h
  have hnotes : NotesOnly (fun inner => inner.rank s < a.rank s)
      (attempt s (hostBeside next) (noted again) a.specifier c a.fallback) :=
    (simulation_notesOnly s next c _).attempt_alone
      (fun _ hu => notesOnly_noted (rank_lt_of_mem_mappedUrls hu) again)
      fun _ hx => notesOnly_noted hx.rank_lt again
  obtain ⟨more, hmore, hrank⟩ := hnotes ⟨st.packages, (st.host, [])⟩
  rw [takenUp, hmore] at hmem
  exact hrank inner hmem

/-- A chain of attempts, each taken up by the one before it, is no longer than its first rank. -/
theorem length_le_rank_of_isChain {a : Activation} {chain : List Activation}
    (h : (a :: chain).IsChain (TakesUp s next c)) : (a :: chain).length ≤ a.rank s := by
  induction chain generalizing a with
  | nil => exact rank_pos s a.specifier a.fallback
  | cons inner rest ih =>
    obtain ⟨htakes, hrest⟩ := List.isChain_cons_cons.mp h
    have hlt := htakes.rank_lt
    have hle := ih hrest
    rw [List.length_cons]
    omega

/-- A way to resolve candidates that takes them up as an attempt does. -/
def Solves (s : Session) (next : Resolver σ) (c : Context) (search : Again σ) : Prop :=
  ∀ specifier fallback, search specifier fallback = attempt s next search specifier c fallback

/-- The search with the limit takes up its candidates with the same limit. -/
theorem solves_resolveWithin (s : Session) (next : Resolver σ) (c : Context) :
    Solves s next c (resolveWithin s next c depthLimit) := by
  intro specifier fallback
  rw [← resolveWithin_eq_of_depthLimit_le next (Nat.le_succ depthLimit)]
  rfl

/-- The recursion has only one solution: an attempt depends on those of lower rank alone. -/
theorem Solves.unique {search search' : Again σ} (h : Solves s next c search)
    (h' : Solves s next c search') : search = search' := by
  funext specifier fallback
  induction hrank : rank s specifier fallback using Nat.strong_induction_on
    generalizing specifier fallback with
  | _ n ih =>
    subst hrank
    rw [h, h']
    exact (Simulation.eq s s.projects s.projects next c).attempt rfl rfl
      (fun u hu => ih _ (rank_lt_of_mem_mappedUrls hu) u .allowed rfl)
      fun x hx => ih _ hx.rank_lt x .nested rfl

/-- The recursion of the search is well founded, at most six attempts lie inside one another, and
the search is what the recursion determines, without a limit. What an attempt takes up is told by
notes that change nothing about it. -/
theorem search_terminates (s : Session) (next : Resolver σ) (c : Context) :
    WellFounded (fun inner a => TakesUp s next c a inner) ∧
      (∀ chain : List Activation, chain.IsChain (TakesUp s next c) → chain.length ≤ 6) ∧
      (∀ (again : Again σ) (a : Activation), Notes (attempt s next again a.specifier c a.fallback)
        (attempt s (hostBeside next) (noted again) a.specifier c a.fallback)) ∧
      ∃ search, Solves s next c search ∧ (∀ other, Solves s next c other → other = search) ∧
        ∀ specifier, resolve s next specifier c =
          tryCatch (search specifier .allowed) fun f => throw (f.relabel specifier) := by
  refine ⟨?_, ?_, notes_attempt, resolveWithin s next c depthLimit,
    solves_resolveWithin s next c, ?_, ?_⟩
  · exact Subrelation.wf (fun htakes => htakes.rank_lt) (measure (Activation.rank s)).wf
  · intro chain hchain
    cases chain with
    | nil => exact Nat.zero_le 6
    | cons a rest =>
      exact (length_le_rank_of_isChain hchain).trans (rank_le_depthLimit s a.specifier a.fallback)
  · exact fun other hother => hother.unique (solves_resolveWithin s next c)
  · exact fun specifier => rfl

/-- A directory that is imported by a source, and mapped to a file that is missing. -/
def deepest : List Activation :=
  [⟨"x/", .allowed⟩, ⟨"x/index.js", .nested⟩, ⟨"x/index.ts", .nested⟩,
    ⟨"file:///w/mapped", .allowed⟩, ⟨"file:///w/mapped.js", .nested⟩,
    ⟨"file:///w/mapped.ts", .nested⟩]

/-- Six attempts do lie inside one another where a source imports a directory by a mapped name, and
no more do. -/
theorem search_terminates_deepest :
    let s : Session :=
      { Session.withoutProjects {} { cwd := ⟨"/w"⟩ } with projects := mappingBy "*" "mapped" }
    let next : Resolver Unit := answering fun specifier c => .error (.missing specifier c)
    let c : Context := { parent := Url.ofPath? ⟨"/w/main.ts"⟩ }
    deepest.IsChain (TakesUp s next c) ∧ deepest.length = 6 ∧
      ∀ chain : List Activation, chain.IsChain (TakesUp s next c) → chain.length ≤ 6 := by
  intro s next c
  refine ⟨?_, rfl, (search_terminates s next c).2.1⟩
  have htakes (a inner : Activation) (h : inner ∈ takenUp s next
      (fun specifier _ => throw (.missing specifier c)) c a ⟨{}, ()⟩) : TakesUp s next c a inner :=
    ⟨_, _, h⟩
  simp only [deepest, List.isChain_cons_cons]
  refine ⟨htakes _ _ ?_, htakes _ _ ?_, htakes _ _ ?_, htakes _ _ ?_, htakes _ _ ?_, .singleton _⟩
    <;> decide +kernel

end ScriptModules.Resolve.Search

import ScriptModules.Proofs.Resolve.Simulation

/-!
# The calls of a search

A host can keep a record of what it is asked. The record changes nothing about a search, and it
accounts for the outcome: every call but the last failed recoverably, and the last call decides.
-/

namespace ScriptModules.Resolve.Search

variable {σ : Type}

/-- One question to a host. -/
structure Call where
  specifier : String
  answer : Except Fault Target
  /-- What was known of the packages after the answer. -/
  packages : Package.Cache

/-- A call after which a search may go on. -/
def Call.Recoverable (call : Call) : Prop :=
  ∃ f, call.answer = .error f ∧ f.isRecoverable = true

/-- A state without the record of calls. -/
def forget (st : State (σ × List Call)) : State σ := ⟨st.packages, st.host.1⟩

/-- A host that keeps a record of its calls next to its own state. -/
def recorded (next : Resolver σ) : Resolver (σ × List Call) := fun specifier c st =>
  let (answer, after) := next specifier c (forget st)
  (answer, ⟨after.packages, (after.host, st.host.2 ++ [⟨specifier, answer, after.packages⟩])⟩)

/-- The outcome of a search, and the calls that it makes. -/
def observe (s : Session) (next : Resolver σ) (specifier : String) (c : Context)
    (st : State σ) : Except Fault Target × List Call :=
  let (outcome, after) := resolve s (recorded next) specifier c ⟨st.packages, (st.host, [])⟩
  (outcome, after.host.2)

/-- A step that does the same as another but for its record. -/
def Records (m : Step σ Target) (m' : Step (σ × List Call) Target) : Prop :=
  ∀ st, m (forget st) = ((m' st).1, forget (m' st).2)

/-- A search over a host with a record does the same as one over the host itself. -/
theorem simulation_records (s : Session) (next : Resolver σ) (c : Context) :
    Simulation s s next (recorded next) c Records where
  fails _ _ _ := rfl
  catches := by
    intro m m' handle handle' hm h st
    rw [run_tryCatch, run_tryCatch, hm st]
    rcases m' st with ⟨f | t, after⟩
    · exact h.rel (fun _ _ => rfl) f after
    · rfl
  asks := by
    intro specifier failed failed' h st
    rw [run_askOr, run_askOr]
    simp only [recorded]
    rcases next specifier c (forget st) with ⟨f | t, after⟩
    · exact h.rel (fun _ _ => rfl) f ⟨after.packages, (after.host, _)⟩
    · simp only [run_decideFormat]
      rfl

/-- Keeping a record does not change the outcome. -/
theorem observe_fst (s : Session) (next : Resolver σ) (specifier : String) (c : Context)
    (st : State σ) : (observe s next specifier c st).1 = (resolve s next specifier c st).1 := by
  have h := (simulation_records s next c).resolveWithin depthLimit specifier .allowed
    ⟨st.packages, (st.host, [])⟩
  simp only [forget] at h
  simp only [observe, run_resolve, h]

/-- What can come of a search, given the calls that it made. -/
inductive Verdict (s : Session) : List Call → Except Fault Target → Prop
  | exhausted {calls f} : (∀ call ∈ calls, call.Recoverable) → f.isRecoverable = true →
      Verdict s calls (.error f)
  | found (calls call) {t} : (∀ call ∈ calls, call.Recoverable) → call.answer = .ok t →
      Verdict s (calls ++ [call]) (decided s t call.packages).1
  | fatal (calls call) {f} : (∀ call ∈ calls, call.Recoverable) → call.answer = .error f →
      f.isRecoverable = false → Verdict s (calls ++ [call]) (.error f)

/-- A search that failed recoverably has only made calls that did. -/
theorem Verdict.recoverable {s : Session} {calls : List Call} {f : Fault}
    (h : Verdict s calls (.error f)) (hf : f.isRecoverable = true) :
    ∀ call ∈ calls, call.Recoverable := by
  generalize ho : Except.error f = outcome at h
  cases h with
  | exhausted hcalls _ => exact hcalls
  | found _ _ hcalls ht =>
    obtain ⟨cause, rfl⟩ := decided_error ho.symm
    exact absurd hf (by simp)
  | fatal _ _ hcalls hg hfatal =>
    obtain rfl := Except.error.inj ho
    exact absurd hf (by simp [hfatal])

/-- After calls that failed recoverably, the rest of a search decides. -/
theorem Verdict.after {s : Session} {calls : List Call} {outcome : Except Fault Target}
    (h : Verdict s calls outcome) (earlier : List Call)
    (hearlier : ∀ call ∈ earlier, call.Recoverable) :
    Verdict s (earlier ++ calls) outcome := by
  have hall {more : List Call} (hmore : ∀ call ∈ more, call.Recoverable) :
      ∀ call ∈ earlier ++ more, call.Recoverable := by
    intro call hcall
    exact (List.mem_append.mp hcall).elim (hearlier call) (hmore call)
  cases h with
  | exhausted hcalls hf => exact .exhausted (hall hcalls) hf
  | found more call hmore ht =>
    rw [← List.append_assoc]
    exact .found _ call (hall hmore) ht
  | fatal more call hmore hg hfatal =>
    rw [← List.append_assoc]
    exact .fatal _ call (hall hmore) hg hfatal

/-- A step whose outcome is accounted for by the calls that it adds to the record. -/
def Settles (s : Session) (m : Step (σ × List Call) Target) : Prop :=
  ∀ st, ∃ calls, (m st).2.host.2 = st.host.2 ++ calls ∧ Verdict s calls (m st).1

/-- Every search over a host with a record settles. -/
theorem simulation_settles (s : Session) (next : Resolver σ) (c : Context) :
    Simulation s s (recorded next) (recorded next) c fun m _ => Settles s m where
  fails f hf st := ⟨[], by simp, .exhausted (by simp) hf⟩
  catches := by
    intro m _ handle _ hm h st
    obtain ⟨calls, hcalls, hv⟩ := hm st
    rw [run_tryCatch]
    rcases hr : m st with ⟨f | t, after⟩ <;> rw [hr] at hcalls hv
    · cases hf : f.isRecoverable with
      | true =>
        obtain ⟨more, hmore, hv'⟩ := h.recovers f hf after
        refine ⟨calls ++ more, ?_, hv'.after calls (hv.recoverable hf)⟩
        exact hmore.trans (by rw [hcalls, List.append_assoc])
      | false =>
        dsimp only
        rw [(h.passes f hf).1]
        exact ⟨calls, hcalls, hv⟩
    · exact ⟨calls, hcalls, hv⟩
  asks := by
    intro specifier failed _ h st
    rw [run_askOr]
    simp only [recorded]
    rcases next specifier c (forget st) with ⟨f | t, after⟩
    · cases hf : f.isRecoverable with
      | true =>
        obtain ⟨more, hmore, hv⟩ := h.recovers f hf
          ⟨after.packages, (after.host, st.host.2 ++ [⟨specifier, .error f, after.packages⟩])⟩
        refine ⟨⟨specifier, .error f, after.packages⟩ :: more, ?_, hv.after [_] ?_⟩
        · simpa using hmore
        · intro call hcall
          obtain rfl := List.mem_singleton.mp hcall
          exact ⟨f, rfl, hf⟩
      | false =>
        dsimp only
        rw [(h.passes f hf).1]
        exact ⟨[_], rfl, .fatal [] _ (by simp) rfl hf⟩
    · simp only [run_decideFormat]
      exact ⟨[_], rfl, .found [] _ (by simp) rfl⟩

/-- What the calls of a search say about its outcome. -/
structure Accounts (s : Session) (specifier : String) (calls : List Call)
    (outcome : Except Fault Target) : Prop where
  /-- Every call but the last failed recoverably. -/
  earlier : ∀ call ∈ calls.dropLast, call.Recoverable
  /-- What the host found last is what is found, with its format decided. -/
  found : ∀ call ∈ calls.getLast?, ∀ t, call.answer = .ok t →
    outcome = ((decideFormat s t : Step Unit Target) ⟨call.packages, ()⟩).1 ∧
      (∀ t', outcome = .ok t' → t'.url = t.url ∧ t'.format.isSome = true) ∧
      ∀ f, outcome = .error f → ∃ cause, f = .config cause
  /-- A failure that is not recoverable ends the search and is shown for the specifier. -/
  fatal : ∀ call ∈ calls, ∀ f, call.answer = .error f → f.isRecoverable = false →
    calls.getLast? = some call ∧ outcome = .error (f.relabel specifier)
  /-- Where nothing but recoverable failures came back, the search fails recoverably. -/
  exhausted : (∀ call ∈ calls, call.Recoverable) →
    ∃ f, outcome = .error f ∧ f.isRecoverable = true ∧ f.specifier? = some specifier

/-- A verdict accounts for the outcome that is shown. -/
theorem Verdict.accounts {s : Session} {calls : List Call} {outcome : Except Fault Target}
    (h : Verdict s calls outcome) (specifier : String) :
    Accounts s specifier calls (outcome.mapError (Fault.relabel specifier)) := by
  have hno {call : Call} {t : Target} (ht : call.answer = .ok t) : ¬ call.Recoverable := by
    rintro ⟨f, hf, -⟩
    exact absurd (ht.symm.trans hf) (by simp)
  have hfatal {call : Call} {f : Fault} (hf : call.answer = .error f)
      (hrec : f.isRecoverable = false) : ¬ call.Recoverable := by
    rintro ⟨g, hg, hgrec⟩
    obtain rfl := Except.error.inj (hf.symm.trans hg)
    exact absurd hgrec (by simp [hrec])
  cases h with
  | @exhausted calls f hcalls hf =>
    refine ⟨fun call hcall => hcalls call (List.dropLast_subset _ hcall), ?_, ?_, ?_⟩
    · intro call hcall t ht
      exact absurd (hcalls call (List.mem_of_getLast? hcall)) (hno ht)
    · intro call hcall g hg hrec
      exact absurd (hcalls call hcall) (hfatal hg hrec)
    · intro _
      exact ⟨f.relabel specifier, rfl, by simpa using hf, Fault.specifier?_relabel hf _⟩
  | found calls call hcalls ht =>
    refine ⟨by simpa using hcalls, ?_, ?_, ?_⟩
    · intro call' hlast t' ht'
      rw [List.getLast?_concat] at hlast
      obtain rfl := Option.some.inj hlast
      obtain rfl := Except.ok.inj (ht.symm.trans ht')
      rw [mapError_decided, run_decideFormat]
      exact ⟨rfl, fun _ => decided_ok, fun _ => decided_error⟩
    · intro call' hcall' g hg hrec
      rcases List.mem_append.mp hcall' with hm | hm
      · exact absurd (hcalls call' hm) (hfatal hg hrec)
      · obtain rfl := List.mem_singleton.mp hm
        exact absurd (ht.symm.trans hg) (by simp)
    · intro hall
      exact absurd (hall call (by simp)) (hno ht)
  | @fatal calls call f hcalls hf hrec =>
    refine ⟨by simpa using hcalls, ?_, ?_, ?_⟩
    · intro call' hlast t ht
      rw [List.getLast?_concat] at hlast
      obtain rfl := Option.some.inj hlast
      exact absurd (ht.symm.trans hf) (by simp)
    · intro call' hcall' g hg hgrec
      rcases List.mem_append.mp hcall' with hm | hm
      · exact absurd (hcalls call' hm) (hfatal hg hgrec)
      · obtain rfl := List.mem_singleton.mp hm
        obtain rfl := Except.error.inj (hf.symm.trans hg)
        exact ⟨List.getLast?_concat, rfl⟩
    · intro hall
      exact absurd (hall call (by simp)) (hfatal hf hrec)

/-- The calls of a search account for its outcome, whatever the host answers. -/
theorem resolve_accounts (s : Session) (next : Resolver σ) (specifier : String) (c : Context)
    (st : State σ) :
    Accounts s specifier (observe s next specifier c st).2
      (resolve s next specifier c st).1 := by
  rw [← observe_fst]
  obtain ⟨calls, hcalls, hv⟩ := (simulation_settles s next c).resolveWithin depthLimit specifier
    .allowed ⟨st.packages, (st.host, [])⟩
  have hlog : (observe s next specifier c st).2 = calls := by
    simpa [observe, run_resolve] using hcalls
  rw [hlog]
  simpa only [observe, run_resolve] using hv.accounts specifier

end ScriptModules.Resolve.Search

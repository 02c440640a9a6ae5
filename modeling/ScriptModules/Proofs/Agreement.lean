/-!
# Runs that agree

Two runs over states agree when they give the same result from states of which one is below the
other, and leave such states behind. Some failures of the first run are exempt: it may fail so
where the second run does not.
-/

namespace ScriptModules

variable {ε S α β : Type}

/-- A run that changes a state and may fail. What it changed stays when it fails. -/
abbrev Run (ε S α : Type) := ExceptT ε (StateM S) α

/-- How runs are compared. -/
structure Comparison (ε S : Type) where
  /-- The states that runs start from and end in. -/
  valid : S → Prop
  /-- The states that the second run may start from, beside the first. -/
  below : S → S → Prop
  /-- The failures of the first run that the second need not have. -/
  exempt : ε → Prop

variable {C : Comparison ε S}

/-- A run that leaves valid states valid. -/
def Keeps (C : Comparison ε S) (m : Run ε S α) : Prop := ∀ s, C.valid s → C.valid (m s).2

/-- Two runs that give the same result, unless the first fails in an exempt way. -/
structure Agrees (C : Comparison ε S) (m m' : Run ε S α) : Prop where
  keeps : Keeps C m
  keeps' : Keeps C m'
  agrees : ∀ s s', C.valid s → C.valid s' → C.below s s' →
    (m s).1 = (m' s').1 ∧ C.below (m s).2 (m' s').2 ∨ ∃ f, C.exempt f ∧ (m s).1 = .error f

/-- Go on with the result of a run, or after its failure. -/
def settle (m : Run ε S α) (next : α → Run ε S β) (failed : ε → Run ε S β) : Run ε S β := fun s =>
  match m s with
  | (.ok a, after) => next a after
  | (.error f, after) => failed f after

/-- To go on after a run that succeeds is to settle it and to fail as it does. -/
theorem bind_eq_settle (m : Run ε S α) (next : α → Run ε S β) :
    m >>= next = settle m next throw := by
  funext s
  simp only [bind, ExceptT.bind, ExceptT.mk, StateT.bind, settle]
  rcases m s with ⟨_ | _, after⟩ <;> rfl

/-- To catch the failure of a run is to settle it and to return what it does. -/
theorem tryCatch_eq_settle (m : Run ε S α) (failed : ε → Run ε S α) :
    tryCatch m failed = settle m pure failed := by
  funext s
  simp only [tryCatch, tryCatchThe, MonadExceptOf.tryCatch, ExceptT.tryCatch, ExceptT.mk, bind,
    StateT.bind, settle]
  rcases m s with ⟨_ | _, after⟩ <;> rfl

/-- What follows a run starts in the state that the run leaves, also when nothing follows. -/
theorem Run.run_bind (m : Run ε S α) (next : α → Run ε S β) (s : S) :
    (m >>= next) s = match m s with
      | (.ok a, after) => next a after
      | (.error f, after) => (.error f, after) := by
  rw [bind_eq_settle, settle]
  rcases m s with ⟨_ | _, after⟩ <;> rfl

/-- A run that gives something in two parts gives something in the first. -/
theorem Run.exists_of_bind_eq_ok {m : Run ε S α} {next : α → Run ε S β} {s after : S} {b : β}
    (h : (m >>= next) s = (.ok b, after)) :
    ∃ a between, m s = (.ok a, between) ∧ next a between = (.ok b, after) := by
  rw [Run.run_bind] at h
  rcases hm : m s with ⟨f | a, between⟩ <;> rw [hm] at h
  · cases congrArg Prod.fst h
  · exact ⟨a, between, rfl, h⟩

/-- A run with some result leaves some state. -/
theorem Run.exists_after {m : Run ε S α} {s : S} {result : Except ε α} (h : (m s).1 = result) :
    ∃ after, m s = (result, after) :=
  ⟨(m s).2, Prod.ext h rfl⟩

theorem Run.run_get (s : S) : (get : Run ε S S) s = (.ok s, s) := rfl

theorem Run.run_set (s s' : S) : (set s' : Run ε S PUnit) s = (.ok ⟨⟩, s') := rfl

/-- A settled run keeps states valid if the run and both ways on do. -/
theorem Keeps.settle {m : Run ε S α} {next : α → Run ε S β} {failed : ε → Run ε S β}
    (h : Keeps C m) (hnext : ∀ a, Keeps C (next a)) (hfailed : ∀ f, Keeps C (failed f)) :
    Keeps C (settle m next failed) := by
  intro s hs
  have hafter := h s hs
  unfold ScriptModules.settle
  rcases hm : m s with ⟨f | a, after⟩ <;> rw [hm] at hafter
  · exact hfailed f after hafter
  · exact hnext a after hafter

namespace Agrees

/-- A run agrees with itself if it gives the same from any states of which one is below the
other. -/
theorem of_same {m : Run ε S α} (hkeeps : Keeps C m)
    (h : ∀ s s', C.below s s' → (m s).1 = (m s').1 ∧ C.below (m s).2 (m s').2) :
    Agrees C m m :=
  ⟨hkeeps, hkeeps, fun s s' _ _ hbelow => Or.inl (h s s' hbelow)⟩

/-- A run on a part of the state agrees with itself if the run on the part alone does. -/
theorem on_part {δ T : Type} {D : Comparison δ T} {m : Run δ T α} {whole : Run ε S α}
    {part : S → T} {wrap : δ → ε} (h : Agrees D m m) (hvalid : ∀ s, C.valid s ↔ D.valid (part s))
    (hbelow : ∀ s s', C.below s s' ↔ D.below (part s) (part s'))
    (hexempt : ∀ f, D.exempt f → C.exempt (wrap f))
    (hwhole : ∀ s, (whole s).1 = (m (part s)).1.mapError wrap ∧
      part (whole s).2 = (m (part s)).2) :
    Agrees C whole whole := by
  have hkeeps : Keeps C whole := by
    intro s hs
    rw [hvalid, (hwhole s).2]
    exact h.keeps _ ((hvalid s).mp hs)
  refine ⟨hkeeps, hkeeps, fun s s' hs hs' hss => ?_⟩
  rw [hbelow, (hwhole s).1, (hwhole s').1, (hwhole s).2, (hwhole s').2]
  rcases h.agrees _ _ ((hvalid s).mp hs) ((hvalid s').mp hs') ((hbelow s s').mp hss) with
    ⟨hresult, hafter⟩ | ⟨f, hf, hresult⟩
  · exact Or.inl ⟨congrArg _ hresult, hafter⟩
  · exact Or.inr ⟨wrap f, hexempt f hf, congrArg _ hresult⟩

/-- Runs agree that leave their states and give one result. -/
theorem of_const {m : Run ε S α} {result : Except ε α} (h : ∀ s, m s = (result, s)) :
    Agrees C m m where
  keeps s hs := by rwa [h]
  keeps' s hs := by rwa [h]
  agrees s s' _ _ hbelow := by
    rw [h, h]
    exact Or.inl ⟨rfl, hbelow⟩

/-- Runs that return the same value agree. -/
theorem pure (a : α) : Agrees C (Pure.pure a) (Pure.pure a) := of_const fun _ => rfl

/-- Runs that fail in the same way agree. -/
theorem throw (f : ε) : Agrees C (MonadExcept.throw f : Run ε S α) (MonadExcept.throw f) :=
  of_const fun _ => rfl

/-- Runs that agree can be settled alike. The first must pass on its exempt failures. -/
theorem settle {m m' : Run ε S α} {next next' : α → Run ε S β} {failed failed' : ε → Run ε S β}
    (h : Agrees C m m') (hnext : ∀ a, Agrees C (next a) (next' a))
    (hfailed : ∀ f, Agrees C (failed f) (failed' f))
    (hexempt : ∀ f, C.exempt f → failed f = MonadExcept.throw f) :
    Agrees C (ScriptModules.settle m next failed) (ScriptModules.settle m' next' failed') where
  keeps := h.keeps.settle (fun a => (hnext a).keeps) fun f => (hfailed f).keeps
  keeps' := h.keeps'.settle (fun a => (hnext a).keeps') fun f => (hfailed f).keeps'
  agrees s s' hs hs' hbelow := by
    have hafter := h.keeps s hs
    have hafter' := h.keeps' s' hs'
    have hagrees := h.agrees s s' hs hs' hbelow
    unfold ScriptModules.settle
    rcases hm : m s with ⟨result, after⟩
    rcases hm' : m' s' with ⟨result', after'⟩
    rw [hm] at hafter hagrees
    rw [hm'] at hafter' hagrees
    rcases hagrees with ⟨rfl, hbelow⟩ | ⟨f, hf, rfl⟩
    · cases result with
      | ok a => exact (hnext a).agrees after after' hafter hafter' hbelow
      | error f => exact (hfailed f).agrees after after' hafter hafter' hbelow
    · exact Or.inr ⟨f, hf, by dsimp only; rw [hexempt f hf]; rfl⟩

/-- Runs agree one after the other if each of them does. -/
theorem bind {m m' : Run ε S α} {next next' : α → Run ε S β} (h : Agrees C m m')
    (hnext : ∀ a, Agrees C (next a) (next' a)) : Agrees C (m >>= next) (m' >>= next') := by
  rw [bind_eq_settle, bind_eq_settle]
  exact h.settle hnext (fun f => .throw f) fun _ _ => rfl

/-- A run that first changes what the comparison passes over agrees with one that does not. -/
theorem bind_left {pre : Run ε S α} {next : α → Run ε S β} {m' : Run ε S β}
    (h : ∀ s, C.valid s → ∃ a after, pre s = (.ok a, after) ∧ C.valid after ∧
      (∀ s', C.below s s' → C.below after s') ∧ Agrees C (next a) m') :
    Agrees C (pre >>= next) m' where
  keeps s hs := by
    obtain ⟨a, after, hpre, hafter, -, hnext⟩ := h s hs
    rw [bind_eq_settle, ScriptModules.settle, hpre]
    exact hnext.keeps after hafter
  keeps' s hs := by
    obtain ⟨a, after, -, -, -, hnext⟩ := h s hs
    exact hnext.keeps' s hs
  agrees s s' hs hs' hbelow := by
    obtain ⟨a, after, hpre, hafter, hbelow', hnext⟩ := h s hs
    rw [bind_eq_settle, ScriptModules.settle, hpre]
    exact hnext.agrees after s' hafter hs' (hbelow' s' hbelow)

/-- A run that agrees with another in every state agrees with itself from two states if the other
does. -/
theorem through {D : Comparison ε S} {m m' : Run ε S α} (h : Agrees D m m')
    (hexempt : ∀ f, ¬ D.exempt f) (h' : Agrees C m' m') (s s' : S) (hs : D.valid s)
    (hs' : D.valid s') (hself : D.below s s) (hself' : D.below s' s') (hv : C.valid s)
    (hv' : C.valid s') (hbelow : C.below s s') :
    (m s).1 = (m s').1 ∨ ∃ f, C.exempt f ∧ (m s).1 = .error f := by
  have hsame := (h.agrees s s hs hs hself).resolve_right fun ⟨f, hf, _⟩ => hexempt f hf
  have hsame' := (h.agrees s' s' hs' hs' hself').resolve_right fun ⟨f, hf, _⟩ => hexempt f hf
  rw [hsame.1, hsame'.1]
  exact (h'.agrees s s' hv hv' hbelow).imp_left And.left

end Agrees

end ScriptModules

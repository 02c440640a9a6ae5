import ScriptModules.Proofs.Load.Outcome

/-!
# Which maps are registered

A call registers the map of what it makes, and no call takes a map away. So the map of a URL is
that of the last call that made something for the URL, even where a later call returned a source
as it was.
-/

namespace ScriptModules.Load

variable {σ α β : Type} {setup : Setup} {next : Loader σ}

/-- A step that leaves the registered maps alone. -/
def KeepsMaps (m : Step σ α) : Prop := ∀ st, (m st).2.maps = st.maps

/-- To return something leaves the maps alone. -/
theorem KeepsMaps.pure (a : α) : KeepsMaps (Pure.pure a : Step σ α) := fun _ => rfl

/-- To fail leaves the maps alone. -/
theorem KeepsMaps.throw (fault : Fault) : KeepsMaps (MonadExcept.throw fault : Step σ α) :=
  fun _ => rfl

/-- Steps that leave the maps alone do so one after the other. -/
theorem KeepsMaps.bind {m : Step σ α} {f : α → Step σ β} (h : KeepsMaps m)
    (hf : ∀ a, KeepsMaps (f a)) : KeepsMaps (m >>= f) := by
  intro st
  have hm := h st
  rw [Run.run_bind]
  rcases hrun : m st with ⟨fault | a, after⟩ <;> rw [hrun] at hm
  · exact hm
  · exact (hf a after).trans hm

/-- Asking for packages leaves the maps alone. -/
theorem keepsMaps_askPackages (ask : Package.Cache → Except Project.Fault α × Package.Cache) :
    KeepsMaps (askPackages ask : Step σ α) := by
  intro st
  rw [run_askPackages]

/-- The loads of the host change nothing but what is known of packages. -/
theorem keepsMaps_hostLoad (s : Session) (url : Url) (c : Context) :
    KeepsMaps (Host.load s url c : Step σ Loaded) := by
  have hformat (path : Path) : KeepsMaps (Host.formatOf s path : Step σ _) := by
    unfold Host.formatOf
    split
    case h_5 => exact (keepsMaps_askPackages _).bind fun _ => .pure _
    all_goals exact .pure _
  unfold Host.load
  split
  · exact .pure _
  · split
    · split
      · unfold Host.loadFile
        split
        · exact .throw _
        · split
          · exact (KeepsMaps.pure _).bind fun _ => .pure _
          · exact (hformat _).bind fun _ => .pure _
      · exact .throw _
    · exact .throw _

/-- What a successful call leaves to be registered for its URL. -/
structure Record where
  url : String
  map? : Option SourceMap
  deriving DecidableEq, Repr

namespace Call

/-- The record of a call, if it succeeds. -/
def record? (setup : Setup) (next : Loader σ) (call : Call) (st : State σ) : Option Record :=
  match (call.outcome setup next st).1 with
  | .error _ => none
  | .ok (_, made?) => some ⟨call.url.text, mapOf? call.url made?⟩

/-- Preparing a module checks its imports, unless its URL names a source or a document. -/
theorem record?_prepare_module {url : Url} (hurl : (Location.isJson url.path ||
    Location.isSource url.path) = false) (source : String) (st : State σ) :
    (prepare source url .module).record? setup next st =
      some ⟨url.text, mapOf? url (checked? url source)⟩ := by
  have hmade : madeOf setup url false true source = .ok (checked? url source) := rfl
  have hruns : (ModuleFormat.module == .module) = true := rfl
  rw [record?, outcome, preparedSource, hurl, hruns, hmade]
  rfl

variable (h : ∀ url c, KeepsMaps (next url c))

include h

/-- What comes of a call leaves the maps alone until it is registered. -/
theorem maps_outcome (setup : Setup) (call : Call) (st : State σ) :
    (call.outcome setup next st).2.maps = st.maps := by
  cases call with
  | prepare source url format => rfl
  | load url c =>
    have hnext := h url (hostContext url c) (st.announced url)
    rw [outcome]
    rcases hrun : next url (hostContext url c) (st.announced url) with
      ⟨fault | loaded, after⟩ <;> rw [hrun] at hnext
    · exact hnext
    · exact hnext

/-- A call that fails leaves the maps as they are. -/
theorem maps_run_of_none {call : Call} {st : State σ} (hnone : call.record? setup next st = none) :
    (call.run setup next st).2.maps = st.maps := by
  rw [run_eq, ← maps_outcome h setup call st]
  unfold record? at hnone
  split at hnone
  case h_1 fault hfault => rw [hfault]; rfl
  case h_2 => cases hnone

/-- After a call that succeeds, its URL has the map of the call, or else the map it had before. The
other URLs have the maps they had. -/
theorem get?_run {call : Call} {st : State σ} {r : Record}
    (hr : call.record? setup next st = some r) (url : String) :
    (call.run setup next st).2.maps.get? url =
      if url = r.url then r.map?.or (st.maps.get? url) else st.maps.get? url := by
  rw [run_eq, ← maps_outcome h setup call st]
  unfold record? at hr
  split at hr
  case h_1 => cases hr
  case h_2 returned made? hresult =>
    obtain rfl := Option.some.inj hr
    rw [hresult]
    dsimp only [conclude, State.register]
    cases mapOf? call.url made? with
    | none => simp
    | some map =>
      by_cases hurl : url = call.url.text
      · rw [if_pos hurl, hurl]
        exact SourceMap.Registry.get?_set_self _ _ _
      · rw [if_neg hurl]
        exact SourceMap.Registry.get?_set_of_ne hurl _ _

end Call

/-- The records of the calls that succeed, in order. -/
def records (setup : Setup) (next : Loader σ) : List Call → State σ → List Record
  | [], _ => []
  | call :: rest, st =>
    (call.record? setup next st).toList ++ records setup next rest (call.run setup next st).2

/-- After each call that succeeds, the registry holds for its URL the map of what the call made,
and no map if it made nothing. -/
def AllDescribed (setup : Setup) (next : Loader σ) : List Call → State σ → Prop
  | [], _ => True
  | call :: rest, st =>
    (∀ r, call.record? setup next st = some r →
      (call.run setup next st).2.maps.get? r.url = r.map?) ∧
    AllDescribed setup next rest (call.run setup next st).2

/-- A URL that had a map has one again. -/
def Renews (earlier later : Record) : Prop :=
  earlier.url = later.url → earlier.map?.isSome → later.map?.isSome

section

variable (h : ∀ url c, KeepsMaps (next url c))

include h

/-- The calls are all described just when each leaves a map for its URL if there was one before. -/
theorem allDescribed_iff_renews (calls : List Call) (st : State σ) :
    AllDescribed setup next calls st ↔
      (records setup next calls st).Pairwise Renews ∧
      ∀ r ∈ records setup next calls st, (st.maps.get? r.url).isSome → r.map?.isSome := by
  induction calls generalizing st with
  | nil => simp [AllDescribed, records]
  | cons call rest ih =>
    rw [AllDescribed, records, ih]
    cases hr : call.record? setup next st with
    | none =>
      rw [Call.maps_run_of_none h hr]
      simp
    | some r =>
      have hself : (call.run setup next st).2.maps.get? r.url = r.map? ↔
          ((st.maps.get? r.url).isSome → r.map?.isSome) := by
        rw [Call.get?_run h hr, if_pos rfl]
        cases r.map? <;> cases st.maps.get? r.url <;> simp
      -- A later call finds the maps from before the first call, and the map of the first call.
      have hlater (r' : Record) :
          (((call.run setup next st).2.maps.get? r'.url).isSome → r'.map?.isSome) ↔
            Renews r r' ∧ ((st.maps.get? r'.url).isSome → r'.map?.isSome) := by
        rw [Call.get?_run h hr, Renews]
        by_cases hurl : r'.url = r.url
        · rw [if_pos hurl, Option.isSome_or, Bool.or_eq_true, or_imp]
          simp [hurl]
        · rw [if_neg hurl]
          simp [Ne.symm hurl]
      simp only [hlater, Option.some.injEq, forall_eq', hself, Option.toList_some,
        List.singleton_append, List.pairwise_cons, List.forall_mem_cons, forall_and]
      constructor
      · rintro ⟨hcall, hpairs, hfirst, hrest⟩
        exact ⟨⟨hfirst, hpairs⟩, hcall, hrest⟩
      · rintro ⟨⟨hfirst, hpairs⟩, hcall, hrest⟩
        exact ⟨hcall, hpairs, hfirst, hrest⟩

/-- From an empty registry, the calls are all described just when no URL is left without a map
after a call that made one for it. -/
theorem allDescribed_iff_pairwise (calls : List Call) {st : State σ} (hst : st.maps = {}) :
    AllDescribed setup next calls st ↔ (records setup next calls st).Pairwise Renews := by
  rw [allDescribed_iff_renews h, hst, and_iff_left_iff_imp]
  intro _ r _ hsome
  cases hsome

end

/-- A module whose imports are checked, and then another source of it that has none. -/
def importsDropped : List Call :=
  [.prepare "import(a)" (rootFile "a.mjs") .module, .prepare "0" (rootFile "a.mjs") .module]

/-- The law at a module whose imports are checked and that has none when it is prepared again. -/
theorem allDescribed_iff_pairwise_importsDropped :
    let setup : Setup := { session := rootSession }
    let st : State Unit := { host := () }
    (∀ url c, KeepsMaps (Host.load rootSession url c : Step Unit Loaded)) ∧ st.maps = {} ∧
      (AllDescribed setup (Host.load rootSession) importsDropped st ↔
        (records setup (Host.load rootSession) importsDropped st).Pairwise Renews) :=
  ⟨keepsMaps_hostLoad rootSession, rfl,
    allDescribed_iff_pairwise (keepsMaps_hostLoad rootSession) importsDropped rfl⟩

/-- The map of a module stays when the module is prepared again and nothing is made of it. -/
theorem not_forall_allDescribed :
    ¬ ∀ (setup : Setup) (next : Loader Unit) (calls : List Call) (st : State Unit),
      (∀ url c, KeepsMaps (next url c)) → st.maps = {} → AllDescribed setup next calls st := by
  intro hall
  have hkept := keepsMaps_hostLoad (σ := Unit) rootSession
  have hdescribed := hall { session := rootSession } (Host.load rootSession) importsDropped
    { host := () } hkept rfl
  have hpairs := ((allDescribed_iff_renews hkept _ _).mp hdescribed).1
  have hchecked : (mapOf? (rootFile "a.mjs") (checked? (rootFile "a.mjs") "import(a)")).isSome := by
    decide +kernel
  have hunchanged : checked? (rootFile "a.mjs") "0" = none := by
    decide +kernel
  have hplain : (Location.isJson (rootFile "a.mjs").path ||
      Location.isSource (rootFile "a.mjs").path) = false := by
    decide
  simp only [importsDropped, records, Call.record?_prepare_module hplain, Option.toList_some,
    List.singleton_append, List.append_nil, List.pairwise_cons, List.forall_mem_singleton] at hpairs
  have hrenewed := hpairs.1 rfl hchecked
  rw [hunchanged] at hrenewed
  cases hrenewed

end ScriptModules.Load

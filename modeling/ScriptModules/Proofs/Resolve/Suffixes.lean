import ScriptModules.Proofs.Resolve.Precedence
import ScriptModules.Proofs.Url.Suffixes

/-!
# Suffixes of specifiers

The host and the sources in place of what is compiled take a path with a query or a fragment for
the path. Appended extensions and indexes go to the query or the fragment instead, and so does the
slash that asks for a directory. So a suffix is carried through exactly where the path is found
without them.
-/

namespace ScriptModules.Resolve

open Specifier (inPath)
open Url (BarePath IsSuffix Carried Pathless cleanBack)

variable {σ : Type} {s : Session} {c : Context} {p q x : String} {suffix : List Char}

/-- A target whose URL has another query and fragment. -/
def Target.withSuffix (t : Target) (suffix : List Char) : Target :=
  { t with url := t.url.withSuffix suffix }

/-- What a step finds. -/
def found (m : Step σ Target) (st : State σ) : Option Target := (m st).1.toOption

/-- A step finds what another one finds, but for the suffix, and fails as that does. -/
def CarriesOver (suffix : List Char) (plain suffixed : Step σ Target) : Prop :=
  ∀ st, match plain st with
    | (.ok t, after) => suffixed st = (.ok (t.withSuffix suffix), after)
    | (.error f, after) => ∃ f', suffixed st = (.error f', after) ∧ f'.kind = f.kind

/-- A step whose recoverable failures change nothing. -/
def KeepsWhenFailing (m : Step σ Target) : Prop :=
  ∀ st f after, m st = (.error f, after) → f.isRecoverable = true → after = st

namespace CarriesOver

variable {plain suffixed : Step σ Target}

/-- Failures of one kind carry over. -/
theorem throw {f f' : Fault} (h : f'.kind = f.kind) :
    CarriesOver suffix (throw f : Step σ Target) (throw f') := fun _ => ⟨f', rfl, h⟩

/-- Where steps carry over, so do they with handlers that do. -/
theorem catches (h : CarriesOver suffix plain suffixed) {handle handle' : Fault → Step σ Target}
    (hhandle : ∀ f f', f'.kind = f.kind → CarriesOver suffix (handle f) (handle' f')) :
    CarriesOver suffix (tryCatch plain handle) (tryCatch suffixed handle') := by
  intro st
  have hst := h st
  rw [run_tryCatch, run_tryCatch]
  rcases hrun : plain st with ⟨f | t, after⟩ <;> rw [hrun] at hst
  · obtain ⟨f', hf', hkind⟩ := hst
    rw [hf']
    exact hhandle f f' hkind after
  · rw [hst]

/-- What is found carries over with the suffix. -/
theorem found_eq (h : CarriesOver suffix plain suffixed) (st : State σ) :
    found suffixed st = (found plain st).map (·.withSuffix suffix) := by
  have hst := h st
  unfold found
  rcases hrun : plain st with ⟨f | t, after⟩ <;> rw [hrun] at hst
  · obtain ⟨f', hf', -⟩ := hst
    rw [hf']
    rfl
  · rw [hst]
    rfl

end CarriesOver

/-- A file is found by any URL of it. -/
theorem carriesOver_resolveFile (u : Url) (x x' : String) :
    CarriesOver suffix (Host.resolveFile s u x c : Step σ Target)
      (Host.resolveFile s (u.withSuffix suffix) x' c) := by
  unfold Host.resolveFile
  rw [Url.toPath?_withSuffix]
  cases u.toPath? with
  | none => exact .throw rfl
  | some path =>
    dsimp only
    split
    · exact .throw rfl
    · split
      · exact .throw rfl
      · intro st
        rw [run_bind, run_bind]
        rcases Host.formatOf s path st with ⟨f | format?, after⟩
        · exact ⟨f, rfl, rfl⟩
        · rfl

/-- Nothing stands at a URL without a path. -/
theorem found_resolveFile_of_pathless {u : Url} (hu : u.location = .segments []) (st : State σ) :
    found (Host.resolveFile s u x c : Step σ Target) st = none := by
  have hno (p : Path) (hp : u.toPath? = some p) :
      s.files.isDirectory p = false ∧ s.files.isFile p = false := by
    have hempty : p.isAbsolute = false := by
      unfold Url.toPath? at hp
      rw [hu] at hp
      dsimp only at hp
      split at hp
      · obtain rfl := Option.some.inj hp
        decide +kernel
      · cases hp
    have hentry : ∀ entry, s.files.entry p ≠ .ok entry := by
      intro entry hentry
      obtain ⟨way, hway, -⟩ := Files.Tree.entry_eq_ok hentry
      rw [(Files.Tree.wayOf_eq_ok hway).2.1] at hempty
      cases hempty
    unfold Files.Tree.isDirectory Files.Tree.isFile
    constructor <;> split
    · exact absurd ‹_› (hentry _)
    · rfl
    · exact absurd ‹_› (hentry _)
    · rfl
  unfold Host.resolveFile
  cases hp : u.toPath? with
  | none => rfl
  | some p =>
    dsimp only
    rw [(hno p hp).1, (hno p hp).2]
    rfl

/-- The host finds a path with a suffix where it finds the path, or it finds neither. -/
theorem carriesOver_host (hp : BarePath p) (hq : IsSuffix q) :
    CarriesOver (cleanBack q.toList) (Host.resolve s p c : Step σ Target)
        (Host.resolve s (p ++ q) c) ∨
      p.toList.getLast? = some '@' ∧ ∀ st : State σ,
        found (Host.resolve s p c) st = none ∧ found (Host.resolve s (p ++ q) c) st = none := by
  rw [host_resolve_path hp.front, host_resolve_path (Specifier.hasPathFront_append hp.front q)]
  cases Host.baseUrl s c with
  | error f => exact Or.inl (.throw rfl)
  | ok base =>
    dsimp only
    rcases hp.join_append hq base with hcarried | ⟨huser, hsuffixed, hpathless⟩
    · rcases hcarried.cases with ⟨f, f', hu, hu'⟩ | ⟨u, hu, hu'⟩ <;> rw [hu, hu']
      · exact Or.inl (.throw rfl)
      · exact Or.inl (carriesOver_resolveFile u p (p ++ q))
    · refine Or.inr ⟨huser, fun st => ⟨?_, ?_⟩⟩
      · cases hu : base.join p with
        | error f => rfl
        | ok u => exact found_resolveFile_of_pathless (hpathless u (by rw [hu]; rfl)) st
      · cases hu : base.join (p ++ q) with
        | error f => rfl
        | ok u =>
          rw [hu] at hsuffixed
          cases hsuffixed

namespace KeepsWhenFailing

/-- To fail changes nothing. -/
theorem throw (f : Fault) : KeepsWhenFailing (throw f : Step σ Target) := by
  rintro st f after ⟨⟩ -
  rfl

/-- A step whose failures change nothing stays one when they are handled by such steps. -/
theorem catches {m : Step σ Target} (h : KeepsWhenFailing m) {handle : Fault → Step σ Target}
    (hhandle : ∀ f, KeepsWhenFailing (handle f))
    (hends : ∀ f, f.isRecoverable = false → handle f = MonadExcept.throw f) :
    KeepsWhenFailing (tryCatch m handle) := by
  intro st g after hrun hg
  have hst := h st
  rw [run_tryCatch] at hrun
  rcases hm : m st with ⟨f | t, between⟩ <;> rw [hm] at hst hrun
  · dsimp only at hrun
    cases hf : f.isRecoverable with
    | true =>
      obtain rfl := hst f between rfl hf
      exact hhandle f between g after hrun hg
    | false =>
      rw [hends f hf, run_throw] at hrun
      obtain rfl := Except.error.inj (Prod.mk.inj hrun).1
      rw [hf] at hg
      cases hg
  · cases hrun

end KeepsWhenFailing

/-- A format that cannot be told is the fault of a package, which ends a search. -/
theorem keepsWhenFailing_format (u : Url) (path : Path) :
    KeepsWhenFailing (do return ⟨u, ← Host.formatOf s path⟩ : Step σ Target) := by
  intro st f after hrun hf
  rw [run_bind] at hrun
  rcases formatOf_cases (σ := σ) s path with ⟨format?, hformat⟩ | hformat <;> rw [hformat] at hrun
  · cases hrun
  · rw [run_map, run_askPackages] at hrun
    cases htype : (Package.Cache.packageType s.files st.packages path).1 with
    | error cause =>
      simp only [htype, Except.mapError] at hrun
      obtain rfl := Except.error.inj (Prod.mk.inj hrun).1
      cases hf
    | ok format =>
      simp only [htype, Except.mapError] at hrun
      cases hrun

/-- A file that is not found changes nothing. -/
theorem keepsWhenFailing_host (hx : Specifier.hasPathFront x = true) :
    KeepsWhenFailing (Host.resolve s x c : Step σ Target) := by
  rw [host_resolve_path hx]
  split
  · split
    · rename_i u _
      unfold Host.resolveFile
      split
      · exact .throw _
      · rename_i path _
        split
        · exact .throw _
        · split
          · exact .throw _
          · exact keepsWhenFailing_format u path
    · exact .throw _
  · exact .throw _

namespace Search

/-- The format of a target has nothing to do with its query and fragment. -/
theorem decided_withSuffix (t : Target) (packages : Package.Cache) :
    decided s (t.withSuffix suffix) packages =
      ((decided s t packages).1.map (·.withSuffix suffix), (decided s t packages).2) := by
  have hinferred : inferredFormat s (t.withSuffix suffix).url packages =
      inferredFormat s t.url packages := by
    change inferredFormat s (t.url.withSuffix suffix) packages = _
    unfold inferredFormat
    rw [Url.scheme_withSuffix, Url.path_withSuffix, Url.toPath?_withSuffix]
  unfold decided
  rw [hinferred]
  change (if t.format.isSome = true then _ else _) = _
  split
  · rfl
  · rcases inferredFormat s t.url packages with ⟨_ | _, _⟩ <;> rfl

/-- Asking for a specifier carries over if the host does. -/
theorem carriesOver_askOr {next : Resolver σ}
    (h : CarriesOver suffix (next p c) (next (p ++ q) c)) :
    CarriesOver suffix (askOr s next p c throw) (askOr s next (p ++ q) c throw) := by
  intro st
  have hst := h st
  rw [run_askOr, run_askOr]
  rcases hrun : next p c st with ⟨f | t, after⟩ <;> rw [hrun] at hst
  · obtain ⟨f', hf', hkind⟩ := hst
    rw [hf']
    exact ⟨f', rfl, hkind⟩
  · rw [hst]
    dsimp only
    rw [run_decideFormat, run_decideFormat, decided_withSuffix]
    rcases (decided s t after.packages).1 with f | t'
    · exact ⟨f, rfl, rfl⟩
    · rfl

/-- Asking for a specifier changes nothing in failing if the host does not. -/
theorem keepsWhenFailing_askOr {next : Resolver σ} (h : KeepsWhenFailing (next x c)) :
    KeepsWhenFailing (askOr s next x c throw) := by
  intro st f after hrun hf
  have hst := h st
  rw [run_askOr] at hrun
  rcases hm : next x c st with ⟨g | t, between⟩ <;> rw [hm] at hst hrun <;> dsimp only at hrun
  · exact hst f after hrun hf
  · rw [run_decideFormat] at hrun
    obtain ⟨hfault, -⟩ := Prod.mk.inj hrun
    obtain ⟨cause, rfl⟩ := decided_error hfault
    cases hf

/-- Ask the host for the sources in place of a specifier and then for the specifier. -/
def direct (s : Session) (next : Resolver σ) (c : Context) (x : String) : Step σ Target :=
  firstOr (fun y => askOr s next y c throw) skipsSource (askOr s next x c throw)
    (prioritySources x c)

/-- What skips a source is recoverable. -/
theorem isRecoverable_of_skipsSource {f : Fault} (h : skipsSource f = true) :
    f.isRecoverable = true := by
  rw [skipsSource, Bool.or_eq_true, beq_iff_eq, beq_iff_eq] at h
  rcases h with h | h <;> rw [Fault.isRecoverable, h]

/-- Candidates whose failures change nothing may be tried one after the other. -/
theorem keepsWhenFailing_firstOr {one : String → Step σ Target} {last : Step σ Target}
    {names : List String} (h : ∀ y ∈ names, KeepsWhenFailing (one y))
    (hlast : KeepsWhenFailing last) : KeepsWhenFailing (firstOr one skipsSource last names) := by
  induction names with
  | nil => exact hlast
  | cons y rest ih =>
    have hrest := ih fun z hz => h z (List.mem_cons_of_mem _ hz)
    refine (h y List.mem_cons_self).catches (fun f => ?_) fun f hf => ?_
    · split
      · exact hrest
      · exact .throw f
    · rw [if_neg]
      intro hskips
      rw [isRecoverable_of_skipsSource hskips] at hf
      cases hf

/-- The first of some candidates carries over if each of them and what comes last do. -/
theorem carriesOver_firstOr {one : String → Step σ Target} {last last' : Step σ Target}
    {names : List String} (h : ∀ y ∈ names, CarriesOver suffix (one y) (one (y ++ q)))
    (hlast : CarriesOver suffix last last') :
    CarriesOver suffix (firstOr one skipsSource last names)
      (firstOr one skipsSource last' (names.map (· ++ q))) := by
  induction names with
  | nil => exact hlast
  | cons y rest ih =>
    refine (h y List.mem_cons_self).catches fun f f' hkind => ?_
    rw [skipsSource, skipsSource, hkind]
    split
    · exact ih fun z hz => h z (List.mem_cons_of_mem _ hz)
    · exact .throw hkind

/-- A suffix is carried along to the sources in place of a path. -/
theorem sourceAlternates_append_suffix (hp : ∀ c ∈ p.toList, inPath c = true) (hq : IsSuffix q) :
    Specifier.sourceAlternates (p ++ q) = (Specifier.sourceAlternates p).map (· ++ q) := by
  have hsuffixed : (p ++ q).toList.takeWhile inPath = p.toList ∧
      (p ++ q).toList.dropWhile inPath = q.toList := by
    rw [String.toList_append, Text.takeWhile_append_of_head hq.stops,
      Text.dropWhile_append_of_head hq.stops, List.takeWhile_eq_self_iff.mpr hp,
      List.dropWhile_eq_nil_iff.mpr hp]
    exact ⟨rfl, rfl⟩
  rw [Specifier.sourceAlternates_eq, Specifier.sourceAlternates_eq, hsuffixed.1, hsuffixed.2,
    List.takeWhile_eq_self_iff.mpr hp, List.dropWhile_eq_nil_iff.mpr hp]
  cases Specifier.sourceExtensions.find? fun x => x.1.toList.isSuffixOf p.toList with
  | none => rfl
  | some pair =>
    dsimp only
    split
    · rfl
    · rw [List.map_map]
      refine List.map_congr_left fun source _ => ?_
      simp [String.ofList_append, String.append_assoc]

/-- A source in place of a path is such a path as well, and does not end in the mark of a user. -/
theorem barePath_of_mem_sourceAlternates {y : String} (hp : BarePath p)
    (hy : y ∈ Specifier.sourceAlternates p) : BarePath y ∧ y.toList.getLast? ≠ some '@' := by
  obtain ⟨stem, compiled, source, rest, hform⟩ := Specifier.exists_sourceForm hy
  have hrest : rest = [] := by
    cases rest with
    | nil => rfl
    | cons c more =>
      have hc := hp.plain c (by rw [hform.specifier_eq]; simp)
      rw [hform.rest_marked c rfl] at hc
      cases hc
  have hlast : y.toList.getLast? = some 's' ∨ y.toList.getLast? = some 'x' := by
    rw [hform.form_eq, hrest]
    rcases hform.extensions_eq with ⟨-, rfl⟩ | ⟨-, rfl⟩ | ⟨-, rfl⟩ | ⟨-, rfl⟩ | ⟨-, rfl⟩ <;>
      simp [List.getLast?_append]
  refine ⟨⟨hform.hasPathFront hp.front, fun c hc => ?_, ?_⟩, ?_⟩
  · rw [hform.form_eq, hrest, List.append_nil, List.mem_append] at hc
    exact hc.elim (hform.stem_plain c) (hform.source_eq.2 c)
  · rcases hlast with h | h <;> exact ⟨_, h, by decide, by decide⟩
  · rcases hlast with h | h <;> rw [h] <;> decide

/-- What ends in the mark of a user has no compiled extension. -/
theorem sourceAlternates_of_user (hp : ∀ c ∈ p.toList, inPath c = true)
    (hlast : p.toList.getLast? = some '@') : Specifier.sourceAlternates p = [] := by
  refine Specifier.sourceAlternates_eq_nil fun x hx hsuffix => ?_
  rw [List.takeWhile_eq_self_iff.mpr hp] at hsuffix
  obtain ⟨front, hfront⟩ := hsuffix
  rw [← hfront] at hlast
  simp only [Specifier.sourceExtensions, List.mem_cons, List.not_mem_nil, or_false] at hx
  rcases hx with rfl | rfl | rfl | rfl <;> simp [List.getLast?_append] at hlast

/-- The sources that are tried first have the suffix behind them. -/
theorem prioritySources_append_suffix (hp : BarePath p) (hq : IsSuffix q) :
    prioritySources (p ++ q) c = (prioritySources p c).map (· ++ q) := by
  unfold prioritySources
  split
  · exact sourceAlternates_append_suffix hp.plain hq
  · rfl

/-- A source is asked for as a path. -/
theorem hasPathFront_of_mem_prioritySources {y : String} (hx : Specifier.hasPathFront x = true)
    (hy : y ∈ prioritySources x c) : Specifier.hasPathFront y = true := by
  obtain ⟨_, _, _, _, hform⟩ := Specifier.exists_sourceForm (mem_sourceAlternates_of_mem hy)
  exact hform.hasPathFront hx

/-- To ask for a path and its sources changes nothing in failing. -/
theorem keepsWhenFailing_direct (hx : Specifier.hasPathFront x = true) :
    KeepsWhenFailing (direct s (Host.resolve s) c x : Step σ Target) := by
  refine keepsWhenFailing_firstOr (fun y hy => ?_)
    (keepsWhenFailing_askOr (keepsWhenFailing_host hx))
  exact keepsWhenFailing_askOr
    (keepsWhenFailing_host (hasPathFront_of_mem_prioritySources hx hy))

/-- Asking directly carries a suffix through. -/
theorem found_direct_append (hp : BarePath p) (hq : IsSuffix q) (st : State σ) :
    found (direct s (Host.resolve s) c (p ++ q)) st =
      (found (direct s (Host.resolve s) c p) st).map (·.withSuffix (cleanBack q.toList)) := by
  rw [direct, direct, prioritySources_append_suffix hp hq]
  rcases carriesOver_host (s := s) (c := c) (σ := σ) hp hq with hcarries | ⟨huser, hnone⟩
  · refine (carriesOver_firstOr (fun y hy => ?_) (carriesOver_askOr hcarries)).found_eq st
    obtain ⟨hbare, hlast⟩ :=
      barePath_of_mem_sourceAlternates hp (mem_sourceAlternates_of_mem hy)
    exact carriesOver_askOr ((carriesOver_host hbare hq).resolve_right fun h => hlast h.1)
  · have hsources : prioritySources p c = [] := by
      rw [List.eq_nil_iff_forall_not_mem]
      intro y hy
      have := mem_sourceAlternates_of_mem hy
      rw [sourceAlternates_of_user hp.plain huser] at this
      cases this
    have hlost {x : String} (hx : found (Host.resolve s x c) st = none) :
        found (askOr s (Host.resolve s) x c throw) st = none := by
      unfold found at hx ⊢
      rw [run_askOr]
      rcases hrun : Host.resolve s x c st with ⟨f | t, after⟩ <;> rw [hrun] at hx
      · rfl
      · cases hx
    rw [hsources, List.map_nil, firstOr, firstOr, hlost (hnone st).1, hlost (hnone st).2]
    rfl

/-- A step that fails at a state, and leaves it as it is if the failure is recoverable. -/
def FailsAt (m : Step σ Target) (st : State σ) : Prop :=
  ∃ f after, m st = (.error f, after) ∧ (f.isRecoverable = true → after = st)

/-- A step that finds nothing fails, and changes nothing if it can be recovered from. -/
theorem failsAt_of_keepsWhenFailing {m : Step σ Target} {st : State σ} (h : KeepsWhenFailing m)
    (hnone : found m st = none) : FailsAt m st := by
  unfold found at hnone
  rcases hrun : m st with ⟨f | t, after⟩ <;> rw [hrun] at hnone
  · exact ⟨f, after, hrun, h st f after hrun⟩
  · cases hnone

namespace FailsAt

variable {m : Step σ Target} {st : State σ}

/-- A step that fails finds nothing. -/
theorem found_eq_none (h : FailsAt m st) : found m st = none := by
  obtain ⟨f, after, hrun, -⟩ := h
  rw [found, hrun]
  rfl

/-- A failure fails. -/
theorem throw (f : Fault) : FailsAt (throw f : Step σ Target) st := ⟨f, st, rfl, fun _ => rfl⟩

/-- A step fails if what handles its failures does. -/
theorem catches (h : FailsAt m st) {handle : Fault → Step σ Target}
    (hhandle : ∀ f, f.isRecoverable = true → FailsAt (handle f) st)
    (hends : ∀ f, f.isRecoverable = false → handle f = MonadExcept.throw f) :
    FailsAt (tryCatch m handle) st := by
  obtain ⟨f, after, hrun, hkeeps⟩ := h
  unfold FailsAt
  rw [run_tryCatch, hrun]
  cases hf : f.isRecoverable with
  | true =>
    obtain rfl := hkeeps hf
    exact hhandle f hf
  | false =>
    dsimp only
    rw [hends f hf]
    exact ⟨f, after, rfl, fun h => by rw [hf] at h; cases h⟩

end FailsAt

section
variable {again : Again σ} {st : State σ}

/-- Trying candidates fails if each of them does. -/
theorem failsAt_tryEach {names : List String} (h : ∀ y ∈ names, FailsAt (again y .nested) st)
    (shown : String) (first? : Option Fault) :
    FailsAt (tryEach again shown names first? c) st := by
  induction names generalizing first? with
  | nil => exact .throw _
  | cons y rest ih =>
    refine (h y List.mem_cons_self).catches (fun f hf => ?_) fun f hf => ?_
    · rw [if_pos hf]
      exact ih (fun z hz => h z (List.mem_cons_of_mem _ hz)) _
    · rw [hf]
      rfl

/-- Probing extensions fails if the specifier fails with each of them. -/
theorem failsAt_probeExtensions (h : ∀ e ∈ extensions, FailsAt (again (x ++ e) .nested) st) :
    FailsAt (probeExtensions again x c) st :=
  failsAt_tryEach (List.forall_mem_map.mpr h) x none

end

/-- A path asks the host for its sources before anything else. -/
theorem resolveWithin_path (next : Resolver σ) (hx : Specifier.hasPathFront x = true)
    (hd : Specifier.isDirectory x = false) (depth : Nat) (fallback : Fallback) :
    resolveWithin s next c (depth + 2) x fallback =
      firstOr (fun y => askOr s next y c throw) skipsSource
        (askOr s next x c (recover (resolveWithin s next c (depth + 1)) x c fallback))
        (prioritySources x c) := by
  rw [resolveWithin, attempt_path hx hd, searchUnmapped]
  refine firstOr_congr (fun y hy => ?_) _ _
  have hmem := mem_sourceAlternates_of_mem hy
  have hy' := hasPathFront_of_mem_prioritySources hx hy
  have hnone : Specifier.sourceAlternates y = [] := by
    have hnone := Specifier.sourceAlternates_of_mem (c := s.capabilities) hmem
    rwa [Specifier.withoutNodePrefix_of_hasPathFront hy'] at hnone
  have hnodir : Specifier.isDirectory y = false := by
    obtain ⟨_, _, _, _, hform⟩ := Specifier.exists_sourceForm hmem
    rw [hform.isDirectory_eq, hd]
  rw [resolveWithin, attempt_path hy' hnodir, searchUnmapped, prioritySources, hnone, ite_self]
  rfl

/-- A candidate is only asked for. -/
theorem resolveWithin_eq_direct (next : Resolver σ) (hx : Specifier.hasPathFront x = true)
    (hd : Specifier.isDirectory x = false) (depth : Nat) :
    resolveWithin s next c (depth + 2) x .nested = direct s next c x :=
  resolveWithin_path next hx hd depth .nested

/-- What is found is found whatever comes after a failure. -/
theorem found_tryCatch {m : Step σ Target} {handle : Fault → Step σ Target} {st : State σ}
    {t : Target} (h : found m st = some t) : found (tryCatch m handle) st = some t := by
  unfold found at h ⊢
  rw [run_tryCatch]
  rcases hrun : m st with ⟨f | t', after⟩ <;> rw [hrun] at h
  · cases h
  · exact h

/-- What is done after a failure matters only if it finds something. -/
theorem found_firstOr {one : String → Step σ Target} {names : List String} {st : State σ}
    {next : Resolver σ} {failed : Fault → Step σ Target}
    (hone : ∀ y ∈ names, KeepsWhenFailing (one y)) (hnext : KeepsWhenFailing (next x c))
    (hends : ∀ f, f.isRecoverable = false → failed f = throw f)
    (hfailed : found (firstOr one skipsSource (askOr s next x c throw) names) st = none →
      ∀ f, f.isRecoverable = true → found (failed f) st = none) :
    found (firstOr one skipsSource (askOr s next x c failed) names) st =
      found (firstOr one skipsSource (askOr s next x c throw) names) st := by
  induction names with
  | nil =>
    rw [firstOr] at hfailed ⊢
    rw [firstOr]
    unfold found at hfailed ⊢
    rw [run_askOr, run_askOr] at *
    rcases hrun : next x c st with ⟨f | t, after⟩ <;> rw [hrun] at hfailed
    · cases hf : f.isRecoverable with
      | true =>
        obtain rfl := hnext st f after hrun hf
        exact hfailed rfl f hf
      | false => exact congrArg (fun m => (m after).1.toOption) (hends f hf)
  | cons y rest ih =>
    have hrest := ih fun z hz => hone z (List.mem_cons_of_mem _ hz)
    unfold found at hfailed hrest ⊢
    rw [firstOr, firstOr, run_tryCatch, run_tryCatch] at *
    rcases hrun : one y st with ⟨f | t, after⟩ <;> rw [hrun] at hfailed
    · dsimp only at hfailed ⊢
      cases hskips : skipsSource f with
      | true =>
        obtain rfl := hone y List.mem_cons_self st f after hrun
          (isRecoverable_of_skipsSource hskips)
        rw [hskips] at hfailed
        exact hrest hfailed
      | false => rfl

/-- Nothing is tried after a failure that cannot be recovered from. -/
theorem recover_of_fatal {again : Again σ} {fallback : Fallback} {f : Fault}
    (hf : f.isRecoverable = false) : recover again x c fallback f = throw f := by
  cases f <;> cases hf <;> cases fallback <;> rfl

/-- What is shown in a failure has no part in what is found. -/
theorem found_resolve (next : Resolver σ) (st : State σ) :
    found (resolve s next x c) st = found (resolveWithin s next c depthLimit x .allowed) st := by
  rw [found, found, run_resolve]
  rcases (resolveWithin s next c depthLimit x .allowed st).1 with f | t <;> rfl

/-- A path is found where asking directly finds it, unless what is tried after that finds more. -/
theorem found_resolve_path (hx : Specifier.hasPathFront x = true)
    (hd : Specifier.isDirectory x = false) {st : State σ}
    (hfailed : found (direct s (Host.resolve s) c x) st = none → ∀ f, f.isRecoverable = true →
      found (recover (resolveWithin s (Host.resolve s) c 5) x c .allowed f) st = none) :
    found (resolve s (Host.resolve s) x c) st = found (direct s (Host.resolve s) c x) st := by
  rw [found_resolve, depthLimit, resolveWithin_path _ hx hd 4]
  refine found_firstOr (fun y hy => ?_) (keepsWhenFailing_host hx)
    (fun f hf => recover_of_fatal hf) hfailed
  exact keepsWhenFailing_askOr
    (keepsWhenFailing_host (hasPathFront_of_mem_prioritySources hx hy))

/-- What is tried for a suffix: a slash at its end asks for an index. -/
def followed (q : String) : String :=
  if Specifier.isDirectory q then q ++ "index.js" else q

section
variable {st : State σ}

/-- What is appended to a suffix changes nothing about where a path leads to. -/
theorem failsAt_append (hp : BarePath p) (hq : IsSuffix q)
    (hnone : found (direct s (Host.resolve s) c p) st = none) {e : String} (he : e ∈ extensions)
    (depth : Nat) :
    FailsAt (resolveWithin s (Host.resolve s) c (depth + 2) (p ++ q ++ e) .nested) st := by
  have hfront := Specifier.hasPathFront_append (Specifier.hasPathFront_append hp.front q) e
  rw [resolveWithin_eq_direct _ hfront (isDirectory_append_extension he)]
  refine failsAt_of_keepsWhenFailing (keepsWhenFailing_direct hfront) ?_
  rw [String.append_assoc, found_direct_append hp (hq.append e), hnone]
  rfl

/-- Probing a directory fails with a suffix if nothing is found at the path itself. -/
theorem failsAt_probeDirectory (hp : BarePath p) (hq : IsSuffix q)
    (hnone : found (direct s (Host.resolve s) c p) st = none) (depth : Nat) :
    FailsAt (probeDirectory (resolveWithin s (Host.resolve s) c (depth + 2)) (p ++ q) c) st := by
  have hprobe {q : String} (hq : IsSuffix q) : FailsAt
      (probeExtensions (resolveWithin s (Host.resolve s) c (depth + 2)) (p ++ q) c) st :=
    failsAt_probeExtensions fun e he => failsAt_append hp hq hnone he depth
  rw [probeDirectory, String.append_assoc, String.append_assoc]
  split
  · exact (hprobe (hq.append _)).catches (fun f _ => .throw _) fun f hf => by simp [hf]
  · refine (hprobe (hq.append _)).catches (fun f hf => ?_) fun f hf => by simp [hf]
    rw [if_pos hf]
    exact (hprobe hq).catches (fun g _ => .throw _) fun g hg => by simp [hg]

/-- Nothing that is tried after the path with its suffix is found. -/
theorem failsAt_recover (hp : BarePath p) (hq : IsSuffix q)
    (hnone : found (direct s (Host.resolve s) c p) st = none) (depth : Nat) (f : Fault) :
    FailsAt (recover (resolveWithin s (Host.resolve s) c (depth + 2)) (p ++ q) c .allowed f)
      st := by
  cases f with
  | notFound shown attempted parent =>
    exact failsAt_probeExtensions fun e he => failsAt_append hp hq hnone he depth
  | unsupportedDirectory shown attempted parent =>
    refine (failsAt_probeDirectory hp hq hnone depth).catches (fun g _ => .throw _) fun g hg => ?_
    rw [if_neg]
    intro hkind
    rw [Fault.isRecoverable, beq_iff_eq.mp hkind] at hg
    cases hg
  | _ => exact .throw _

end

/-- A suffix decides whether a specifier is that of a directory. -/
theorem isDirectory_append_suffix (hq : IsSuffix q) :
    Specifier.isDirectory (p ++ q) = Specifier.isDirectory q := by
  refine Text.endsWith_append ?_ p
  obtain ⟨c, hc, -⟩ := hq
  rw [← String.length_toList (s := q)]
  exact List.length_pos_iff.mpr (by rintro h; rw [h] at hc; cases hc)

/-- A path with a suffix is found where asking directly finds the path. -/
theorem found_resolve_append (hp : BarePath p) (hq : IsSuffix q) (st : State σ) :
    found (resolve s (Host.resolve s) (p ++ q) c) st =
      (found (direct s (Host.resolve s) c p) st).map
        (·.withSuffix (cleanBack (followed q).toList)) := by
  have hfront := Specifier.hasPathFront_append hp.front q
  have hdirectory : Specifier.isDirectory (p ++ q) = Specifier.isDirectory q :=
    isDirectory_append_suffix hq
  cases hd : Specifier.isDirectory q with
  | false =>
    rw [hd] at hdirectory
    rw [followed, hd, if_neg Bool.false_ne_true, ← found_direct_append hp hq]
    refine found_resolve_path hfront hdirectory fun hnone f _ => ?_
    rw [found_direct_append hp hq, Option.map_eq_none_iff] at hnone
    exact (failsAt_recover hp hq hnone 3 f).found_eq_none
  | true =>
    rw [hd] at hdirectory
    rw [followed, hd, if_pos rfl, found_resolve, depthLimit, resolveWithin, attempt_eq,
      Specifier.withoutNodePrefix_of_hasPathFront hfront]
    dsimp only
    rw [if_pos hdirectory]
    cases hfound : found (direct s (Host.resolve s) c p) st with
    | none => exact (failsAt_probeDirectory hp hq hfound 3).found_eq_none
    | some t =>
      -- The first candidate is the path with a longer suffix.
      have hindex : p ++ q ++ "index" ++ ".js" = p ++ (q ++ "index.js") := by
        rw [String.append_assoc, String.append_assoc]
        rfl
      have hcandidate : Specifier.isDirectory (p ++ q ++ "index" ++ ".js") = false :=
        isDirectory_append_extension (by decide)
      rw [probeDirectory, if_pos hdirectory]
      refine found_tryCatch (found_tryCatch ?_)
      rw [resolveWithin_eq_direct _ (Specifier.hasPathFront_append
        (Specifier.hasPathFront_append hfront _) _) hcandidate, hindex,
        found_direct_append hp (hq.append _), hfound]
      rfl

/-- A longer suffix is another one. -/
theorem withSuffix_followed_ne (hq : IsSuffix q) (hd : Specifier.isDirectory q = true)
    (t : Target) :
    t.withSuffix (cleanBack (followed q).toList) ≠ t.withSuffix (cleanBack q.toList) := by
  have hlonger : cleanBack (followed q).toList = cleanBack q.toList ++ "index.js".toList := by
    rw [followed, hd, if_pos rfl, String.toList_append]
    exact Url.cleanBack_append (Specifier.isDirectory_iff.mp hd) (by decide)
      (Url.visible_of_all (by decide))
  obtain ⟨c, hc, hmark⟩ := hq
  rw [← IsSuffix.head?_cleanBack ⟨c, hc, hmark⟩] at hc
  obtain ⟨rest, hrest⟩ := List.head?_eq_some_iff.mp hc
  rw [hlonger, hrest]
  intro heq
  have hurl := congrArg Target.url heq
  have hne : "index.js".toList ≠ [] := by decide
  exact Url.queryAndFragment_append_ne hne (by decide) hmark rest
    (Prod.ext (congrArg Url.query hurl) (congrArg Url.fragment hurl))

/-- A path with a suffix is found where asking for its sources and for the path itself finds the
path, and for a suffix that ends in a slash the URL goes on with an index. So the path is found
with the suffix just as without it unless it is found by its extensions or as a directory, or the
suffix ends in a slash. -/
theorem found_resolve_append_iff (hp : BarePath p) (hq : IsSuffix q) (st : State σ) :
    found (resolve s (Host.resolve s) (p ++ q) c) st =
        (found (direct s (Host.resolve s) c p) st).map
          (·.withSuffix (cleanBack (followed q).toList)) ∧
      (found (resolve s (Host.resolve s) (p ++ q) c) st =
          (found (resolve s (Host.resolve s) p c) st).map (·.withSuffix (cleanBack q.toList)) ↔
        found (direct s (Host.resolve s) c p) st = found (resolve s (Host.resolve s) p c) st ∧
          (Specifier.isDirectory q = true → found (resolve s (Host.resolve s) p c) st = none)) := by
  have happend := found_resolve_append (s := s) (c := c) hp hq st
  refine ⟨happend, ?_⟩
  rw [happend]
  cases hdirect : found (direct s (Host.resolve s) c p) st with
  | none =>
    cases found (resolve s (Host.resolve s) p c) st with
    | none => simp
    | some t => simp
  | some t =>
    have hresolve : found (resolve s (Host.resolve s) p c) st = some t := by
      rw [found_resolve_path hp.front hp.isDirectory_eq, hdirect]
      intro hnone
      rw [hdirect] at hnone
      cases hnone
    rw [hresolve, Option.map_some, Option.map_some, Option.some.injEq]
    cases hd : Specifier.isDirectory q with
    | true => simpa using withSuffix_followed_ne hq hd t
    | false =>
      rw [followed, hd]
      simp

/-- The one file is found with a query. -/
theorem found_resolve_append_oneFile :
    (BarePath "/d/e/b.js" ∧ IsSuffix "?x=1") ∧
    found (resolve inOneFile (Host.resolve inOneFile) ("/d/e/b.js" ++ "?x=1") {})
          (⟨{}, ()⟩ : State Unit) =
        (found (direct inOneFile (Host.resolve inOneFile) {} "/d/e/b.js") ⟨{}, ()⟩).map
          (·.withSuffix (cleanBack (followed "?x=1").toList)) ∧
      (found (resolve inOneFile (Host.resolve inOneFile) ("/d/e/b.js" ++ "?x=1") {}) ⟨{}, ()⟩ =
          (found (resolve inOneFile (Host.resolve inOneFile) "/d/e/b.js" {})
            (⟨{}, ()⟩ : State Unit)).map (·.withSuffix (cleanBack "?x=1".toList)) ↔
        found (direct inOneFile (Host.resolve inOneFile) {} "/d/e/b.js") ⟨{}, ()⟩ =
            found (resolve inOneFile (Host.resolve inOneFile) "/d/e/b.js" {})
              (⟨{}, ()⟩ : State Unit) ∧
          (Specifier.isDirectory "?x=1" = true →
            found (resolve inOneFile (Host.resolve inOneFile) "/d/e/b.js" {})
              (⟨{}, ()⟩ : State Unit) = none)) := by
  have hp : BarePath "/d/e/b.js" :=
    ⟨by decide +kernel, List.all_eq_true.mp (by decide), 's', by decide, by decide, by decide⟩
  have hq : IsSuffix "?x=1" := ⟨'?', rfl, rfl⟩
  exact ⟨⟨hp, hq⟩, found_resolve_append_iff hp hq _⟩

/-- A file that is found by its extension is not found with a query, and one that is found by its
name is found under another query if that ends in a slash. -/
theorem not_forall_found_resolve_append :
    (¬ ∀ (s : Session) (c : Context) (p q : String) (st : State Unit),
      Specifier.isPath p = true → (∀ d ∈ p.toList, inPath d = true) →
      Specifier.isDirectory p = false → IsSuffix q →
      (found (resolve s (Host.resolve s) (p ++ q) c) st).isSome =
        (found (resolve s (Host.resolve s) p c) st).isSome) ∧
    ¬ ∀ (s : Session) (c : Context) (p q : String) (st : State Unit),
      Specifier.isPath p = true → (∀ d ∈ p.toList, inPath d = true) →
      Specifier.isDirectory p = false → IsSuffix q →
      found (resolve s (Host.resolve s) (p ++ q) c) st =
        (found (resolve s (Host.resolve s) p c) st).map (·.withSuffix (cleanBack q.toList)) := by
  constructor
  · intro h
    have heq := h inOneFile {} "/d/e/b" "?x=1" ⟨{}, ()⟩ (by decide +kernel)
      (List.all_eq_true.mp (by decide)) (by decide +kernel) ⟨'?', rfl, rfl⟩
    revert heq
    decide +kernel
  · intro h
    have heq := h inOneFile {} "/d/e/b.js" "?x/" ⟨{}, ()⟩ (by decide +kernel)
      (List.all_eq_true.mp (by decide)) (by decide +kernel) ⟨'?', rfl, rfl⟩
    revert heq
    decide +kernel

end Search

end ScriptModules.Resolve

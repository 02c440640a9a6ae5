import ScriptModules.Proofs.Resolve.Asked
import ScriptModules.Proofs.Resolve.Mapping

/-!
# What a failure says

A failure that leaves a search is one that the host gave to a call, shown for the specifier that was
asked for. The rest of what it says stays that of the call: a subpath that is not exported, the
manifest that was looked at, and the reason for which a specifier is invalid.
-/

namespace ScriptModules.Resolve

open Specifier (isDirectory withoutNodePrefix)

variable {σ : Type} {s : Session} {next : Resolver σ} {c : Context} {specifier : String}
  {fallback : Fallback}

/-- What a host says in its failures beside the specifier and the importing module. -/
structure Wording where
  subpath : String → Option Url → String
  manifest : String → Option Url → Path
  reason : String → Option Url → String

namespace Wording

/-- The words for a kind of failure that shows one specifier and says the rest of another. There
are none for faults of a configuration, which show no specifier. -/
def text (w : Wording) (shown asked : String) (parent : Option Url) : FaultKind → String
  | .notFound => (Fault.notFound shown asked parent).text
  | .unsupportedDirectory => (Fault.unsupportedDirectory shown asked parent).text
  | .pathNotExported =>
    (Fault.pathNotExported shown (w.subpath asked parent) (w.manifest asked parent)).text
  | .importNotDefined => (Fault.importNotDefined shown asked (w.manifest asked parent)).text
  | .unknownBuiltin => (Fault.unknownBuiltin shown).text
  | .invalidSpecifier => (Fault.invalidSpecifier shown (w.reason asked parent)).text
  | .config => ""

/-- A failure shows one specifier and says the rest of another. -/
def Tells (w : Wording) (shown asked : String) (parent : Option Url) (f : Fault) : Prop :=
  f.specifier? = some shown ∧ f.text = w.text shown asked parent f.kind

/-- The failures of a host, but for faults of a configuration, speak of nothing but the specifier
and the importing module that it is asked about. -/
def IsOf (w : Wording) (next : Resolver σ) : Prop :=
  ∀ specifier c st f, (next specifier c st).1 = .error f → f.kind ≠ .config →
    w.Tells specifier specifier c.parent f

/-- Showing another specifier leaves the rest of a failure as it was. -/
theorem Tells.relabel {w : Wording} {shown asked : String} {parent : Option Url} {f : Fault}
    (h : w.Tells shown asked parent f) (specifier : String) :
    w.Tells specifier asked parent (f.relabel specifier) := by
  obtain ⟨hshown, htext⟩ := h
  cases f with
  | config cause => cases hshown
  | pathNotExported _ sub m => exact ⟨rfl, htext⟩
  | unknownBuiltin _ => exact ⟨rfl, rfl⟩
  | _ =>
    -- The specifier stands between the two halves of the text, so the second halves agree.
    cases hshown
    refine ⟨rfl, ?_⟩
    unfold text Fault.text Fault.relabel Fault.kind at *
    dsimp only at htext ⊢
    rw [String.append_right_inj] at htext ⊢
    exact htext

end Wording

namespace Search

/-- A failure in a record of calls: the host gave it to one of them, whatever specifier is shown
since. That a path is not exported it said of an `own` specifier. Faults of a configuration need no
call. -/
def Reported (own : String → Prop) (calls : List Call) (f : Fault) : Prop :=
  f.kind ≠ .config → ∃ call ∈ calls, ∃ g, call.answer = .error g ∧
    (∃ shown, f = g ∨ f = g.relabel shown) ∧ (f.kind = .pathNotExported → own call.specifier)

namespace Reported

variable {own own' : String → Prop} {calls calls' : List Call} {f : Fault}

/-- What is reported in some calls is reported in more of them. -/
theorem mono (h : Reported own calls f) (hcalls : calls ⊆ calls') : Reported own calls' f := by
  intro hf
  obtain ⟨call, hcall, g, hg⟩ := h hf
  exact ⟨call, hcalls hcall, g, hg⟩

/-- Only of paths that are not exported does it matter whose they are. -/
theorem of_kind (h : Reported own calls f)
    (hown : f.kind = .pathNotExported → ∀ x, own x → own' x) :
    Reported own' calls f := by
  intro hf
  obtain ⟨call, hcall, g, hg, hshown, hcallOwn⟩ := h hf
  exact ⟨call, hcall, g, hg, hshown, fun hk => hown hk _ (hcallOwn hk)⟩

/-- What is reported may show another specifier. -/
theorem relabel (h : Reported own calls f) (shown : String) :
    Reported own calls (f.relabel shown) := by
  intro hf
  rw [Fault.kind_relabel] at hf ⊢
  obtain ⟨call, hcall, g, hg, ⟨_, rfl | rfl⟩, hcallOwn⟩ := h hf
  · exact ⟨call, hcall, f, hg, ⟨shown, Or.inr rfl⟩, hcallOwn⟩
  · exact ⟨call, hcall, g, hg, ⟨shown, Or.inr (by simp)⟩, hcallOwn⟩

end Reported

/-- From a state, a step keeps the record and fails with nothing but what is reported in it. -/
structure ReportsFrom (own : String → Prop) (m : Step (σ × List Call) Target)
    (st : State (σ × List Call)) : Prop where
  keeps : st.host.2 ⊆ (m st).2.host.2
  reported : ∀ f, (m st).1 = .error f → Reported own (m st).2.host.2 f

/-- A step that does so from every state. -/
def Reports (own : String → Prop) (m : Step (σ × List Call) Target) : Prop :=
  ∀ st, ReportsFrom own m st

variable {own own' : String → Prop} {st : State (σ × List Call)}

/-- A failure that is reported is reported when it is thrown. -/
theorem reportsFrom_throw {f : Fault} (h : Reported own st.host.2 f) :
    ReportsFrom own (throw f : Step (σ × List Call) Target) st where
  keeps _ := id
  reported g hg := by
    obtain rfl := Except.error.inj hg
    exact h

/-- A step whose failures are caught reports what its handler does. -/
theorem ReportsFrom.tryCatch {m : Step (σ × List Call) Target}
    {handle : Fault → Step (σ × List Call) Target} (hm : ReportsFrom own' m st)
    (hhandle : ∀ f after, st.host.2 ⊆ after.host.2 → Reported own' after.host.2 f →
      ReportsFrom own (handle f) after) :
    ReportsFrom own (tryCatch m handle) st := by
  obtain ⟨hkeeps, hreported⟩ := hm
  rcases hrun : m st with ⟨f | t, after⟩ <;> rw [hrun] at hkeeps hreported
  · obtain ⟨hmore, hfails⟩ := hhandle f after hkeeps (hreported f rfl)
    exact ⟨by rw [run_tryCatch, hrun]; exact fun _ hcall => hmore (hkeeps hcall),
      by rw [run_tryCatch, hrun]; exact hfails⟩
  · exact ⟨by rw [run_tryCatch, hrun]; exact hkeeps,
      by rw [run_tryCatch, hrun]; exact fun _ hno => by cases hno⟩

/-- A step that reports for some specifiers does so for more of them. -/
theorem Reports.mono {m : Step (σ × List Call) Target} (h : Reports own' m)
    (hown : ∀ x, own' x → own x) : Reports own m := fun st =>
  ⟨(h st).keeps, fun f hf => ((h st).reported f hf).of_kind fun _ => hown⟩

/-- Where the host fails it is asked for its own failure. -/
theorem reports_askOr {name : String} {failed : Fault → Step (σ × List Call) Target}
    (hname : own name)
    (h : ∀ f after, Reported own after.host.2 f → ReportsFrom own (failed f) after) :
    Reports own (askOr s (recorded next) name c failed) := by
  intro st
  have hgrows : ∀ answer packages, st.host.2 ⊆ st.host.2 ++ [⟨name, answer, packages⟩] :=
    fun _ _ => List.subset_append_left _ _
  constructor <;> rw [run_askOr] <;> simp only [recorded] <;>
    rcases next name c (forget st) with ⟨f | t, after⟩
  · refine fun _ hcall => (h f _ fun _ => ?_).keeps (hgrows _ _ hcall)
    exact ⟨_, List.mem_append_right _ List.mem_cons_self, f, rfl, ⟨name, Or.inl rfl⟩,
      fun _ => hname⟩
  · simp only [run_decideFormat]
    exact hgrows _ _
  · refine (h f _ fun _ => ?_).reported
    exact ⟨_, List.mem_append_right _ List.mem_cons_self, f, rfl, ⟨name, Or.inl rfl⟩,
      fun _ => hname⟩
  · intro f hf hkind
    simp only [run_decideFormat] at hf
    obtain ⟨cause, rfl⟩ := decided_error hf
    exact absurd rfl hkind

/-- That a path is not exported is recoverable. -/
theorem kind_ne_of_not_recoverable {f : Fault} (h : f.isRecoverable = false) :
    f.kind ≠ .pathNotExported := by
  intro hk
  rw [Fault.isRecoverable, hk] at h
  cases h

/-- Candidates are tried for what comes last, if they are passed over where a path is not
exported. -/
theorem reports_firstOr {tryOne : String → Step (σ × List Call) Target} {skips : Fault → Bool}
    (hskips : ∀ f, f.kind = .pathNotExported → skips f = true)
    {last : Step (σ × List Call) Target} (hlast : Reports own last) {candidates : List String}
    (h : ∀ x ∈ candidates, Reports (fun _ => True) (tryOne x)) :
    Reports own (firstOr tryOne skips last candidates) := by
  induction candidates with
  | nil => exact hlast
  | cons x rest ih =>
    intro st
    refine (h x List.mem_cons_self st).tryCatch fun f after _ hf => ?_
    cases hskip : skips f with
    | true => exact ih (fun y hy => h y (List.mem_cons_of_mem _ hy)) after
    | false =>
      refine reportsFrom_throw (hf.of_kind fun hk => ?_)
      rw [hskips f hk] at hskip
      cases hskip

variable {again : Again (σ × List Call)}

/-- Once there is a failure to report, trying further candidates reports it. -/
theorem reportsFrom_tryEach {shown : String} {candidates : List String}
    (h : ∀ x ∈ candidates, Reports (fun _ => True) (again x .nested)) {first : Fault}
    (hfirst : Reported own st.host.2 first) :
    ReportsFrom own (tryEach again shown candidates (some first) c) st := by
  induction candidates generalizing st with
  | nil => exact reportsFrom_throw hfirst
  | cons x rest ih =>
    refine (h x List.mem_cons_self st).tryCatch fun f after hkeeps hf => ?_
    cases hrec : f.isRecoverable with
    | true => exact ih (fun y hy => h y (List.mem_cons_of_mem _ hy)) (hfirst.mono hkeeps)
    | false =>
      exact reportsFrom_throw (hf.of_kind fun hk => absurd hk (kind_ne_of_not_recoverable hrec))

/-- Of the forms with an extension, the first one is reported. -/
theorem reports_probeExtensions {name : String}
    (hfirst : Reports own (again (name ++ ".js") .nested))
    (h : ∀ e ∈ extensions, Reports (fun _ => True) (again (name ++ e) .nested)) :
    Reports own (probeExtensions again name c) := by
  intro st
  refine (hfirst st).tryCatch fun f after _ hf => ?_
  cases hrec : f.isRecoverable with
  | true =>
    refine reportsFrom_tryEach (fun x hx => ?_) (hf.relabel name)
    obtain ⟨e, he, rfl⟩ :=
      List.mem_map.mp (List.mem_of_mem_tail (l := extensions.map (name ++ ·)) hx)
    exact h e he
  | false => exact reportsFrom_throw hf

/-- The failure of the index of a directory is reported. -/
theorem reports_probeDirectory {name : String}
    (hallowed : isDirectory name = false → fallback = .allowed)
    (hindex : isDirectory name = true → Reports own (again (name ++ "index" ++ ".js") .nested))
    (hbelow : isDirectory name = false → Reports own (again (name ++ "/index" ++ ".js") .nested))
    (h : ∀ x, Derived c name fallback x → Reports (fun _ => True) (again x .nested)) :
    Reports own (probeDirectory again name c) := by
  intro st
  cases hd : isDirectory name with
  | true =>
    have hprobe : Reports own (probeExtensions again (name ++ "index") c) :=
      reports_probeExtensions (hindex hd) fun e he => h _ (.index hd he)
    rw [probeDirectory, if_pos hd]
    refine (hprobe st).tryCatch fun f after _ hf => reportsFrom_throw ?_
    split
    · exact hf.relabel name
    · exact hf
  | false =>
    have hf' := hallowed hd
    have hprobe : Reports own (probeExtensions again (name ++ "/index") c) :=
      reports_probeExtensions (hbelow hd) fun e he => h _ (.indexBelow hd hf' he)
    have hextended : Reports (fun _ => True) (probeExtensions again name c) :=
      reports_probeExtensions (h _ (.extended hd hf' (by decide)))
        fun e he => h _ (.extended hd hf' he)
    rw [probeDirectory, if_neg (by simp [hd])]
    refine (hprobe st).tryCatch fun f after _ hf => ?_
    split
    · refine (hextended after).tryCatch fun g later hkeeps hg => reportsFrom_throw ?_
      cases hrec : g.isRecoverable with
      | true => exact (hf.mono hkeeps).relabel name
      | false => exact hg.of_kind fun hk => absurd hk (kind_ne_of_not_recoverable hrec)
    · exact reportsFrom_throw hf

/-- What is done after the host failed reports its failure or that of a first form. -/
theorem reportsFrom_recover {name : String} (hd : isDirectory name = false)
    (hextended : fallback = .allowed → Reports own (again (name ++ ".js") .nested))
    (hbelow : fallback = .allowed → Reports own (again (name ++ "/index" ++ ".js") .nested))
    (h : ∀ x, Derived c name fallback x → Reports (fun _ => True) (again x .nested)) {f : Fault}
    (hf : Reported own st.host.2 f) :
    ReportsFrom own (recover again name c fallback f) st := by
  cases fallback with
  | nested => exact reportsFrom_throw hf
  | allowed =>
    rw [recover, if_neg (by decide)]
    split
    · have hprobe : Reports own (probeDirectory again name c) :=
        reports_probeDirectory (fun _ => rfl) (by simp [hd]) (fun _ => hbelow rfl) h
      refine (hprobe st).tryCatch fun g after hkeeps hg => reportsFrom_throw ?_
      split
      · exact hf.mono hkeeps
      · exact hg
    · exact reports_probeExtensions (hextended rfl) (fun e he => h _ (.extended hd rfl he)) st
    · exact reportsFrom_throw hf

/-- The specifiers of which a search may report that they are not exported: the specifier itself and
the first of the forms that are tried after it. -/
def ownForms (s : Session) (specifier : String) (fallback : Fallback) : List String :=
  let name := withoutNodePrefix s.capabilities specifier
  let form (back : String) : String := withoutNodePrefix s.capabilities (name ++ back)
  if isDirectory name then [form "index.js"]
  else if fallback = .allowed then [name, form ".js", form "/index.js"]
  else [name]

/-- A form of a specifier is its only form. -/
theorem ownForms_of_derived {name form : String} (h : Derived c name fallback form) :
    ownForms s form .nested = [withoutNodePrefix s.capabilities form] := by
  have hd : isDirectory (withoutNodePrefix s.capabilities form) = false := by
    rw [Bool.eq_false_iff]
    intro hd
    have hform := h.isDirectory_eq
    rw [Specifier.isDirectory_of_withoutNodePrefix hd] at hform
    cases hform
  simp [ownForms, hd]

/-- A search within its rank reports failures of calls. -/
theorem reports_resolveWithin {depth : Nat} (hdepth : rank s specifier fallback ≤ depth) :
    Reports (· ∈ ownForms s specifier fallback)
      (resolveWithin s (recorded next) c depth specifier fallback) := by
  induction depth generalizing specifier fallback with
  | zero => exact absurd hdepth (by have := rank_pos s specifier fallback; omega)
  | succ depth ih =>
    have hurls : ∀ u ∈ mappedUrls s (withoutNodePrefix s.capabilities specifier) c,
        Reports (fun _ => True) (resolveWithin s (recorded next) c depth u .allowed) := by
      intro u hu
      have hlt : rank s u .allowed < rank s specifier fallback := rank_lt_of_mem_mappedUrls hu
      exact (ih (by omega)).mono fun _ _ => trivial
    have hforms : ∀ form, Derived c (withoutNodePrefix s.capabilities specifier) fallback form →
        Reports (· = withoutNodePrefix s.capabilities form)
          (resolveWithin s (recorded next) c depth form .nested) := by
      intro form hform
      have hlt : rank s form .nested < rank s specifier fallback := hform.rank_lt
      refine (ih (by omega)).mono fun x hx => ?_
      rw [ownForms_of_derived hform] at hx
      exact List.mem_singleton.mp hx
    have hany : ∀ form, Derived c (withoutNodePrefix s.capabilities specifier) fallback form →
        Reports (fun _ => True) (resolveWithin s (recorded next) c depth form .nested) :=
      fun form hform => (hforms form hform).mono fun _ _ => trivial
    have hindex (name : String) : name ++ "index" ++ ".js" = name ++ "index.js" := by
      rw [String.append_assoc]
      rfl
    have hbelow (name : String) : name ++ "/index" ++ ".js" = name ++ "/index.js" := by
      rw [String.append_assoc]
      rfl
    rw [resolveWithin, attempt_eq, ownForms]
    dsimp only
    generalize withoutNodePrefix s.capabilities specifier = name at hurls hforms hany ⊢
    cases hd : isDirectory name with
    | true =>
      refine reports_probeDirectory (by simp [hd]) (fun _ => ?_) (by simp [hd]) hany
      refine (hforms _ (.index hd (by decide))).mono fun x hx => ?_
      simp [hx, hindex]
    | false =>
      refine reports_firstOr (fun f hk => by simp [Fault.isRecoverable, hk]) ?_ hurls
      refine reports_firstOr (fun f hk => by simp [skipsSource, hk]) ?_
        fun form hform => hany form (.source hd hform)
      refine reports_askOr (by cases fallback <;> simp) fun f after hf => ?_
      refine reportsFrom_recover hd (fun hallowed => ?_) (fun hallowed => ?_) hany hf
      · refine (hforms _ (.extended hd hallowed (by decide))).mono fun x hx => ?_
        simp [hx, hallowed]
      · refine (hforms _ (.indexBelow hd hallowed (by decide))).mono fun x hx => ?_
        simp [hx, hallowed, hbelow]

/-- A failure that leaves a search is that of a call, shown for the specifier. -/
theorem exists_call_of_resolve {specifier : String} {st : State σ} {f : Fault}
    (h : (resolve s next specifier c st).1 = .error f) (hf : f.kind ≠ .config) :
    ∃ call ∈ (observe s next specifier c st).2, ∃ g, call.answer = .error g ∧
      f = g.relabel specifier ∧
      (f.kind = .pathNotExported → call.specifier ∈ ownForms s specifier .allowed) := by
  have hsearch : Reports (· ∈ ownForms s specifier .allowed)
      (resolveWithin s (recorded next) c depthLimit specifier .allowed) :=
    reports_resolveWithin (rank_le_depthLimit s specifier .allowed)
  have hreports := (hsearch ⟨st.packages, (st.host, [])⟩).reported
  rw [← observe_fst] at h
  simp only [observe, run_resolve] at h ⊢
  cases hrun : (resolveWithin s (recorded next) c depthLimit specifier .allowed
      ⟨st.packages, (st.host, [])⟩).1 with
  | ok t =>
    rw [hrun] at h
    cases h
  | error f' =>
    rw [hrun] at h
    obtain rfl := Except.error.inj h
    obtain ⟨call, hcall, g, hg, ⟨_, heq⟩, hown⟩ := (hreports f' hrun).relabel specifier hf
    refine ⟨call, hcall, g, hg, ?_, hown⟩
    have hagain : (f'.relabel specifier).relabel specifier = f'.relabel specifier := by simp
    rcases heq with heq | heq
    · rw [← hagain, heq]
    · rw [← hagain, heq, Fault.relabel_relabel]

/-- A search that fails shows its specifier, and says for the rest what the host says of one call of
it. So it speaks of the specifier alone, except where the host says more of a call than it shows:
when a path is not exported, which is said of the specifier or a first form of it, when an import is
not defined, and when a specifier is invalid, which is said of the last call. -/
theorem resolve_tells {w : Wording} (hnext : w.IsOf next) {specifier : String} {st : State σ}
    {f : Fault} (h : (resolve s next specifier c st).1 = .error f) (hf : f.kind ≠ .config) :
    f.specifier? = some specifier ∧
      (f.kind = .notFound ∨ f.kind = .unsupportedDirectory ∨ f.kind = .unknownBuiltin →
        f.text = w.text specifier specifier c.parent f.kind) ∧
      ∃ call ∈ (observe s next specifier c st).2,
        f.text = w.text specifier call.specifier c.parent f.kind ∧
        (f.kind = .pathNotExported → call.specifier ∈ ownForms s specifier .allowed) ∧
        (f.kind = .invalidSpecifier → (observe s next specifier c st).2.getLast? = some call) := by
  obtain ⟨call, hcall, g, hg, rfl, hown⟩ := exists_call_of_resolve h hf
  obtain ⟨before, after, hanswer⟩ := exists_answer_of_mem_observe hcall
  rw [Fault.kind_relabel] at hf
  have htells := hnext call.specifier c before g (by rw [hanswer, hg]) hf
  obtain ⟨hshown, htext⟩ := htells.relabel specifier
  refine ⟨hshown, fun hplain => ?_, call, hcall, htext, hown, fun hinvalid => ?_⟩
  · rw [htext]
    rcases hplain with hk | hk | hk <;> rw [hk] <;> rfl
  · have hrec : g.isRecoverable = false := by
      rw [Fault.kind_relabel] at hinvalid
      rw [Fault.isRecoverable, hinvalid]
    exact ((resolve_accounts s next specifier c st).fatal call hcall g hg hrec).1

/-- A host that exports nothing, and knows one name not even as a package. -/
def exportsNothing (specifier : String) (c : Context) : Except Fault Target :=
  if specifier = "a" then .error (.missing specifier c)
  else .error (.pathNotExported specifier ("./" ++ specifier) ⟨"/pkg/package.json"⟩)

/-- The words of that host. -/
def exportsNothingWording : Wording where
  subpath specifier _ := "./" ++ specifier
  manifest _ _ := ⟨"/pkg/package.json"⟩
  reason _ _ := ""

/-- The host that exports nothing speaks of what it is asked. -/
theorem exportsNothingWording_isOf :
    exportsNothingWording.IsOf (answering exportsNothing : Resolver σ) := by
  intro specifier c st f hf _
  rw [answering] at hf
  unfold exportsNothing at hf
  split at hf <;> obtain rfl := Except.error.inj hf <;> exact ⟨rfl, rfl⟩

/-- A name that is not found, and whose first form is not exported, is said not to be exported under
that form. -/
theorem resolve_tells_form :
    let s := Session.withoutProjects {} { cwd := ⟨"/w"⟩ }
    let w := exportsNothingWording
    let f : Fault := .pathNotExported "a" "./a.js" ⟨"/pkg/package.json"⟩
    (w.IsOf (answering exportsNothing : Resolver Unit) ∧
      (resolve s (answering exportsNothing) "a" {} (⟨{}, ()⟩ : State Unit)).1 = .error f) ∧
    f.specifier? = some "a" ∧ f.text ≠ w.text "a" "a" none f.kind ∧
      ∃ call ∈ (observe s (answering exportsNothing) "a" {} (⟨{}, ()⟩ : State Unit)).2,
        f.text = w.text "a" call.specifier none f.kind ∧
          call.specifier ∈ ["a", "a.js", "a/index.js"] := by
  intro s w f
  have hfails : (resolve s (answering exportsNothing) "a" {} (⟨{}, ()⟩ : State Unit)).1 =
      .error f := by decide +kernel
  obtain ⟨hshown, -, call, hcall, htext, hown, -⟩ :=
    resolve_tells exportsNothingWording_isOf hfails (by decide)
  have hforms : ownForms s "a" .allowed = ["a", "a.js", "a/index.js"] := by decide +kernel
  exact ⟨⟨exportsNothingWording_isOf, hfails⟩, hshown, by decide +kernel, call, hcall, htext,
    hforms ▸ hown rfl⟩

/-- What is shown of a failure need not be what the host says of the specifier. -/
theorem not_forall_tells :
    ¬ ∀ (s : Session) (next : Resolver Unit) (w : Wording) (specifier : String) (c : Context)
      (st : State Unit) (f : Fault), w.IsOf next → (resolve s next specifier c st).1 = .error f →
        f.kind ≠ .config → w.Tells specifier specifier c.parent f := by
  intro h
  obtain ⟨-, htext⟩ := h (Session.withoutProjects {} { cwd := ⟨"/w"⟩ }) (answering exportsNothing)
    exportsNothingWording "a/" {} ⟨{}, ()⟩
    (.pathNotExported "a/" "./a/index.js" ⟨"/pkg/package.json"⟩) exportsNothingWording_isOf
    (by decide +kernel) (by decide)
  exact absurd htext (by decide +kernel)

end Search

end ScriptModules.Resolve

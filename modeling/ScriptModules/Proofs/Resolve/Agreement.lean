import ScriptModules.Proofs.Package.Cache
import ScriptModules.Proofs.Resolve.Simulation
import ScriptModules.Resolve.Host

/-!
# Resolving with different memories

The resolution of the host and the search around it touch what is known of the packages by
questions alone. Two searches agree whenever the questions do.
-/

namespace ScriptModules.Resolve

open Package (Cache)

variable {σ α : Type} {C : Comparison Fault (State σ)} {t : Files.Tree}

/-- Questions to the packages agree for two searches if they do for two caches. -/
def AsksAgree (C : Comparison Fault (State σ)) (t : Files.Tree) : Prop :=
  ∀ {α : Type} (ask : Cache → Except Project.Fault α × Cache),
    Agrees (Cache.comparison t) ask ask → Agrees C (askPackages ask) (askPackages ask)

/-- A result that does not depend on the state is the same. -/
theorem agrees_lift (x : Except Fault α) : Agrees C (liftM x : Step σ α) (liftM x) :=
  .of_const fun _ => rfl

namespace Host

variable {s : Session} {specifier : String} {c : Context}

/-- The format of a file is told alike if questions to the packages are. -/
theorem agrees_formatOf (h : AsksAgree C s.files) (p : Path) :
    Agrees C (formatOf s p : Step σ _) (formatOf s p) := by
  unfold formatOf
  split
  case h_5 => exact (h _ (Cache.agrees_packageType p)).bind fun _ => .pure _
  all_goals exact .pure _

/-- A file is resolved alike if questions to the packages are. -/
theorem agrees_resolveFile (h : AsksAgree C s.files) (url : Url) :
    Agrees C (resolveFile s url specifier c : Step σ _) (resolveFile s url specifier c) := by
  unfold resolveFile
  cases url.toPath? with
  | none => exact .throw _
  | some path =>
    dsimp only
    split
    · exact .throw _
    · split
      · exact .throw _
      · exact (agrees_formatOf h path).bind fun _ => .pure _

/-- A file at a path is resolved alike if questions to the packages are. -/
theorem agrees_fileAt (h : AsksAgree C s.files) (p : Path) :
    Agrees C (do resolveFile s (← fileUrl p) specifier c : Step σ _)
      (do resolveFile s (← fileUrl p) specifier c) :=
  (agrees_lift _).bind fun url => agrees_resolveFile h url

/-- A package is resolved alike if questions to the packages are. -/
theorem agrees_resolvePackage (h : AsksAgree C s.files) :
    Agrees C (resolvePackage s specifier c : Step σ _) (resolvePackage s specifier c) := by
  unfold resolvePackage
  dsimp only
  split
  · exact .throw _
  · rename_i dir _
    refine (h _ (Cache.agrees_reading (Path.endsInName_join Cache.isName_manifest))).bind
      fun manifest => ?_
    split
    · split
      · exact .throw _
      · exact agrees_fileAt h _
    · exact agrees_fileAt h _

/-- An import of the package itself is resolved alike if questions to the packages are. -/
theorem agrees_resolveImport (h : AsksAgree C s.files) :
    Agrees C (resolveImport s specifier c : Step σ _) (resolveImport s specifier c) := by
  unfold resolveImport
  refine (h _ (Cache.agrees_nearestAmong _)).bind fun nearest => ?_
  rcases nearest with _ | ⟨manifest, value⟩
  · exact .throw _
  · dsimp only
    split
    · exact .throw _
    · split
      · exact agrees_fileAt h _
      · exact agrees_resolvePackage h

/-- The resolutions of the host agree when the questions to the packages do. -/
theorem agrees_resolve (h : AsksAgree C s.files) :
    Agrees C (resolve s specifier c : Step σ _) (resolve s specifier c) := by
  unfold resolve
  split
  · split
    · exact agrees_lift _
    · exact .throw _
  · split
    · exact agrees_lift _
    · split
      · refine (agrees_lift _).bind fun base => ?_
        split
        · exact agrees_resolveFile h _
        · exact .throw _
      · split
        · split
          · exact .pure _
          · exact .throw _
        · split
          · exact agrees_resolveImport h
          · exact agrees_resolvePackage h

end Host

namespace Search

variable {s : Session} {c : Context}

/-- The format of a target is decided alike if questions to the packages are. -/
theorem agrees_decideFormat (h : AsksAgree C s.files) (target : Target) :
    Agrees C (decideFormat s target : Step σ _) (decideFormat s target) := by
  unfold decideFormat
  split
  · exact .pure _
  · dsimp only
    split
    · split
      · exact (Agrees.pure _).bind fun _ => .pure _
      · split
        · exact (h _ (Cache.agrees_packageType _)).bind fun _ => .pure _
        · exact (Agrees.pure _).bind fun _ => .pure _
    · exact (Agrees.pure _).bind fun _ => .pure _

/-- To ask the host is to settle its answer, with the format decided. -/
theorem askOr_eq_settle (next : Resolver σ) (specifier : String) (failed : Fault → Step σ Target) :
    askOr s next specifier c failed = settle (next specifier c) (decideFormat s) failed := by
  funext st
  rw [run_askOr, settle]
  rcases next specifier c st with ⟨_ | _, after⟩ <;> rfl

/-- Searches agree when the questions to the packages do and no recoverable failure is exempt. The
projects have no part in what a search does with a candidate. -/
theorem simulation_agrees (h : AsksAgree C s.files)
    (hexempt : ∀ f, C.exempt f → f.isRecoverable = false) (projects : Project.Registry) :
    Simulation { s with projects := projects } s (Host.resolve s) (Host.resolve s) c
      (Agrees C) where
  fails f _ := .throw f
  catches := by
    intro m m' handle handle' hm hhandle
    rw [tryCatch_eq_settle, tryCatch_eq_settle]
    exact hm.settle (fun t => .pure t) (hhandle.rel fun f => .throw f)
      fun f hf => (hhandle.passes f (hexempt f hf)).1
  asks := by
    intro specifier failed failed' hfailed
    have hdecide : (decideFormat { s with projects := projects } : Target → Step σ _) =
        decideFormat s := by
      funext target st
      simp only [run_decideFormat, decided_withProjects]
    rw [askOr_eq_settle, askOr_eq_settle, hdecide]
    exact (Host.agrees_resolve h).settle (agrees_decideFormat h) (hfailed.rel fun f => .throw f)
      fun f hf => (hfailed.passes f (hexempt f hf)).1

end Search

/-- Searches that start from different caches. -/
def comparison (σ : Type) (t : Files.Tree) : Comparison Fault (State σ) where
  valid st := Cache.Sound t st.packages
  below st st' := Cache.Within st.packages st'.packages
  exempt f := ∃ cause, Cache.Exceeds cause ∧ f = .config cause

/-- Caches of which one knows more are asked alike. -/
theorem asksAgree_comparison (σ : Type) (t : Files.Tree) : AsksAgree (comparison σ t) t := by
  intro α ask hask
  refine hask.on_part (fun _ => Iff.rfl) (fun _ _ => Iff.rfl)
    (fun cause hcause => ⟨cause, hcause, rfl⟩) fun st => ?_
  rw [run_askPackages]
  exact ⟨rfl, rfl⟩

/-- A search finds the same with little or much known of the packages. -/
theorem Search.agrees_resolve (s : Session) (specifier : String) (c : Context) :
    Agrees (comparison σ s.files) (Search.resolve s (Host.resolve s) specifier c)
      (Search.resolve s (Host.resolve s) specifier c) := by
  have hexempt : ∀ f, (comparison σ s.files).exempt f → f.isRecoverable = false := by
    rintro _ ⟨cause, -, rfl⟩
    rfl
  have hwithin := (simulation_agrees (c := c) (asksAgree_comparison σ s.files) hexempt
    s.projects).resolveWithin depthLimit specifier .allowed
  rw [Search.resolve, tryCatch_eq_settle]
  refine hwithin.settle (fun t => .pure t) (fun f => .throw _) ?_
  rintro _ ⟨cause, -, rfl⟩
  rfl

end ScriptModules.Resolve

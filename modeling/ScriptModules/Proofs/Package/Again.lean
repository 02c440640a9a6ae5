import ScriptModules.Proofs.Files.Rooted
import ScriptModules.Proofs.Package.Cache

/-!
# Asking again

A question that the packages have answered is answered the same when it is asked again, and nothing
more is learned by that. Under its shortest spelling a file has one type, whatever is known.
-/

namespace ScriptModules.Package.Cache

open Json (Value)
open ScriptModules.Path (EndsInName Shortest)

variable {t : Files.Tree} {c c' after later : Cache}

/-- Whatever one cache knows of manifests, another knows too. -/
def Extends (c c' : Cache) : Prop :=
  ∀ parts value, c.manifests.lookup parts = some value → c'.manifests.lookup parts = some value

theorem Extends.refl (c : Cache) : Extends c c := fun _ _ h => h

theorem Extends.trans {c c' c'' : Cache} (h : Extends c c') (h' : Extends c' c'') :
    Extends c c'' := fun parts value hlookup => h' parts value (h parts value hlookup)

/-- What was read is known. -/
theorem reading_ok {p : Path} {value : Option Value} (h : reading t p c = (.ok value, after)) :
    Extends c after ∧ after.manifests.lookup p.parts = some value := by
  cases hlookup : c.manifests.lookup p.parts with
  | some known =>
    rw [reading_of_known hlookup] at h
    obtain ⟨hvalue, rfl⟩ := Prod.mk.inj h
    obtain rfl := Except.ok.inj hvalue
    exact ⟨.refl c, hlookup⟩
  | none =>
    rw [reading_of_unknown hlookup] at h
    cases hfound : found t p with
    | error f =>
      rw [hfound] at h
      cases h
    | ok value' =>
      rw [hfound] at h
      obtain ⟨hvalue, rfl⟩ := Prod.mk.inj h
      obtain rfl := Except.ok.inj hvalue
      refine ⟨fun parts known hknown => ?_, by rw [lookup_cons, if_pos rfl]⟩
      rw [lookup_cons, if_neg, hknown]
      rintro rfl
      rw [hlookup] at hknown
      cases hknown

/-- A search upward finds the same again in every cache that knows what it learned, whatever the
files are by then. -/
theorem nearestAmong_again {dirs : List Path} {result : Option (Path × Value)}
    (h : nearestAmong t dirs c = (.ok result, after)) :
    Extends c after ∧ ∀ t' later, Extends after later →
      nearestAmong t' dirs later = (.ok result, later) := by
  induction dirs generalizing c with
  | nil =>
    obtain ⟨hresult, rfl⟩ := Prod.mk.inj h
    obtain rfl := Except.ok.inj hresult
    exact ⟨.refl c, fun _ _ _ => rfl⟩
  | cons dir above ih =>
    by_cases hdir : (dir.fileName? == some "node_modules") = true
    · rw [nearestAmong_cons_of_packages hdir] at h
      obtain ⟨hresult, rfl⟩ := Prod.mk.inj h
      obtain rfl := Except.ok.inj hresult
      exact ⟨.refl c, fun _ later _ => nearestAmong_cons_of_packages hdir above later⟩
    · rw [nearestAmong_cons hdir, settle] at h
      rcases hread : reading t (dir.join "package.json") c with ⟨f | value?, between⟩ <;>
        rw [hread] at h
      · cases h
      · obtain ⟨hextends, hknown⟩ := reading_ok hread
        have hagain (t' : Files.Tree) (later : Cache) (hlater : Extends between later) :
            reading t' (dir.join "package.json") later = (.ok value?, later) :=
          reading_of_known (hlater _ _ hknown)
        cases value? with
        | some value =>
          obtain ⟨hresult, rfl⟩ := Prod.mk.inj h
          obtain rfl := Except.ok.inj hresult
          refine ⟨hextends, fun t' later hlater => ?_⟩
          rw [nearestAmong_cons hdir, settle, hagain t' later hlater]
          rfl
        | none =>
          obtain ⟨hextends', habove⟩ := ih h
          refine ⟨hextends.trans hextends', fun t' later hlater => ?_⟩
          rw [nearestAmong_cons hdir, settle, hagain t' later (hextends'.trans hlater)]
          exact habove t' later hlater

/-- A type that was told is told again, and telling it is no news about manifests. -/
theorem typeOf_again {dir : Path} {manifest? : Option (Path × Value)} {format : ModuleFormat}
    (h : typeOf dir manifest? c = (.ok format, after)) :
    after.manifests = c.manifests ∧ typeOf dir manifest? after = (.ok format, after) := by
  cases manifest? with
  | none =>
    obtain ⟨hformat, rfl⟩ := Prod.mk.inj h
    obtain rfl := Except.ok.inj hformat
    exact ⟨rfl, rfl⟩
  | some pair =>
    dsimp only [typeOf] at h ⊢
    cases hlookup : c.types.lookup (pair.1.parent?.getD dir).parts with
    | some known =>
      rw [hlookup] at h
      obtain ⟨hformat, rfl⟩ := Prod.mk.inj h
      obtain rfl := Except.ok.inj hformat
      exact ⟨rfl, by rw [hlookup]⟩
    | none =>
      rw [hlookup] at h
      obtain ⟨hformat, rfl⟩ := Prod.mk.inj h
      obtain rfl := Except.ok.inj hformat
      exact ⟨rfl, by rw [lookup_cons, if_pos rfl]⟩

/-- The type of a package is told again as it was told. -/
theorem packageType_again {file : Path} {format : ModuleFormat}
    (h : packageType t c file = (.ok format, after)) :
    packageType t after file = (.ok format, after) := by
  have heq := packageType_eq (t := t) file
  rw [congrFun heq c, settle] at h
  rw [congrFun heq after, settle]
  rcases hnearest : nearest t c (packageDir file) with ⟨f | manifest?, between⟩ <;>
    rw [hnearest] at h
  · cases h
  · obtain ⟨-, hagain⟩ := nearestAmong_again hnearest
    obtain ⟨hmanifests, htype⟩ := typeOf_again h
    have hextends : Extends between after := fun parts value hlookup => by rwa [hmanifests]
    have hnearest' : nearest t after (packageDir file) = (.ok manifest?, after) :=
      hagain t after hextends
    rw [hnearest']
    exact htype

/-- No other spelling of a manifest can be read where the shortest is too long, so what is known of
it is what reading it gives. -/
theorem Sound.reading_shortest (h : Sound t c) {p : Path} {ps : List String} (hp : EndsInName p)
    (hshortest : Shortest p ps) (hne : ps ≠ []) : (reading t p c).1 = found t p := by
  cases hlookup : c.manifests.lookup p.parts with
  | none =>
    rw [reading_of_unknown hlookup]
    cases found t p <;> rfl
  | some known =>
    rw [reading_of_known hlookup]
    obtain ⟨q, hq, hparts, hfound⟩ := h.manifests _ _ hlookup
    rcases found_of_parts_eq hparts.symm hp hq hfound with hsame | ⟨hlong, -⟩
    · exact hsame.symm
    · have hlong' : Files.Tree.TooLong q :=
        Nat.lt_of_lt_of_le hlong (hshortest.utf8ByteSize_le hne hparts)
      obtain ⟨cause, hunread⟩ := exists_found_eq_of_tooLong (t := t) hlong'
      rw [hunread] at hfound
      cases hfound

/-- The nearest manifest is the same for two sound caches where no spelling is too long. -/
theorem Sound.nearestAmong_shortest (h : Sound t c) (h' : Sound t c') {dirs : List Path}
    (hdirs : ∀ dir ∈ dirs, ∃ ps, Shortest dir ps) :
    (nearestAmong t dirs c).1 = (nearestAmong t dirs c').1 := by
  induction dirs generalizing c c' with
  | nil => rfl
  | cons dir above ih =>
    by_cases hdir : (dir.fileName? == some "node_modules") = true
    · rw [nearestAmong_cons_of_packages hdir, nearestAmong_cons_of_packages hdir]
    · obtain ⟨ps, hps⟩ := hdirs dir List.mem_cons_self
      have hp : EndsInName (dir.join "package.json") := Path.endsInName_join isName_manifest
      have hmanifest := hps.join isName_manifest
      have hread := h.reading_shortest hp hmanifest (by simp)
      have hread' := h'.reading_shortest hp hmanifest (by simp)
      have hkeeps := keeps_reading (t := t) hp c h
      have hkeeps' := keeps_reading (t := t) hp c' h'
      rw [nearestAmong_cons hdir, settle, settle]
      rcases hrun : reading t (dir.join "package.json") c with ⟨result, later⟩
      rcases hrun' : reading t (dir.join "package.json") c' with ⟨result', later'⟩
      rw [hrun] at hread hkeeps
      rw [hrun'] at hread' hkeeps'
      obtain rfl : result = result' := hread.trans hread'.symm
      rcases result with f | _ | value
      · rfl
      · exact ih hkeeps hkeeps' fun dir' hdir' => hdirs dir' (List.mem_cons_of_mem _ hdir')
      · rfl

/-- The type of a file in its shortest spelling does not depend on what is known. -/
theorem Sound.packageType_shortest (h : Sound t c) (h' : Sound t c') {file : Path}
    {ps : List String} (hfile : Shortest file ps) :
    (packageType t c file).1 = (packageType t c' file).1 := by
  have hdir : ∃ qs, Shortest (packageDir file) qs := by
    unfold packageDir
    cases hparent : file.parent? with
    | none => exact ⟨ps, hfile⟩
    | some dir => exact ⟨_, hfile.parent? hparent⟩
  obtain ⟨qs, hqs⟩ := hdir
  rw [(h.packageType_eq file).1, (h'.packageType_eq file).1]
  exact congrArg _ (h.nearestAmong_shortest h' fun dir hmem => hqs.of_mem_ancestors hmem)

/-- The type of a package is one of executables. -/
theorem Sound.packageType_executable (h : Sound t c) {file : Path} {format : ModuleFormat}
    (htype : (packageType t c file).1 = .ok format) : format = .script ∨ format = .module := by
  rw [(h.packageType_eq file).1] at htype
  have hdeclared (value : Value) : declaredFormat value = .script ∨
      declaredFormat value = .module := by
    unfold declaredFormat
    split
    · exact Or.inr rfl
    · exact Or.inl rfl
  cases hnearest : (nearest t c (packageDir file)).1 with
  | error f =>
    rw [hnearest] at htype
    cases htype
  | ok manifest? =>
    rw [hnearest] at htype
    obtain rfl := Except.ok.inj htype
    cases manifest? with
    | none => exact Or.inl rfl
    | some pair => exact hdeclared pair.2

end ScriptModules.Package.Cache

import ScriptModules.Proofs.Resolve.Depth
import ScriptModules.Proofs.Specifier.Schemes
import ScriptModules.Proofs.Url.Endings
import ScriptModules.Resolve.Host

/-!
# Modules of foreign schemes

A URL that names neither a file nor a module of the host is answered without a look at the files or
the projects: by what it is read as. But a search puts sources in the place of what is compiled from
them, and an index after a slash, in such a URL as in a path.
-/

namespace ScriptModules.Resolve

open Specifier (isDirectory withoutNodePrefix)

variable {σ : Type} {s : Session} {c : Context} {u : Url} {x : String} {st : State σ}

/-- The host takes any URL that it need not look for as it is read. -/
theorem Host.resolve_of_parse (h : Url.parse x = .ok u) (hlong : 1 < u.scheme.length)
    (hnode : u.scheme ≠ "node") (hpath : Specifier.isPath x = false) (s : Session) (c : Context) :
    (Host.resolve s x c : Step σ Target) = pure ⟨u, none⟩ := by
  rw [Host.resolve, Specifier.dropPrefix?_of_parse h hnode]
  dsimp only
  rw [Specifier.isBuiltin_of_parse h, hpath, Specifier.hasScheme_of_parse h hlong, h]
  rfl

namespace Search

/-- A specifier that is read as a URL of a scheme that is neither that of files nor that of the
host. -/
structure IsForeign (scheme x : String) : Prop where
  parsed : ∃ u, Url.parse x = .ok u ∧ u.scheme = scheme
  long : 1 < scheme.length
  notFile : scheme ≠ "file"
  notNode : scheme ≠ "node"

/-- The extensions that stand for each other are endings of URLs. -/
theorem isEnding_of_sourceForm {form compiled source : String} {stem rest : List Char}
    (h : Specifier.SourceForm x form stem compiled source rest) :
    Url.IsEnding compiled.toList ∧ Url.IsEnding source.toList := by
  have hending {letters : List Char} (hne : letters ≠ [])
      (hletters : letters.all Char.isLower = true) : Url.IsEnding ('.' :: letters) :=
    ⟨letters, rfl, hne, List.all_eq_true.mp hletters⟩
  rcases h.extensions_eq with ⟨rfl, rfl⟩ | ⟨rfl, rfl⟩ | ⟨rfl, rfl⟩ | ⟨rfl, rfl⟩ | ⟨rfl, rfl⟩ <;>
    exact ⟨hending (by decide) (by decide), hending (by decide) (by decide)⟩

namespace IsForeign

variable {scheme : String}

/-- A foreign URL has no prefix of built-in modules. -/
theorem withoutNodePrefix_eq (h : IsForeign scheme x) (capabilities : Host.Capabilities) :
    withoutNodePrefix capabilities x = x := by
  obtain ⟨u, hu, rfl⟩ := h.parsed
  rw [withoutNodePrefix, Specifier.dropPrefix?_of_parse hu h.notNode]
  cases capabilities.nodePrefix <;> rfl

/-- A foreign URL is not mapped. -/
theorem mappedUrls_eq (h : IsForeign scheme x) (s : Session) (c : Context) :
    mappedUrls s x c = [] := by
  obtain ⟨u, hu, rfl⟩ := h.parsed
  have hbare : Specifier.isBare x = false := by
    rw [Specifier.isBare, Specifier.hasScheme_of_parse hu h.long, Bool.not_true, Bool.and_false]
  rw [mappedUrls, hbare]
  rfl

/-- A source of what has a foreign scheme has the same scheme. -/
theorem source (h : IsForeign scheme x) {form : String} (hform : form ∈ prioritySources x c) :
    IsForeign scheme form := by
  obtain ⟨u, hu, rfl⟩ := h.parsed
  obtain ⟨stem, compiled, source, rest, hform⟩ :=
    Specifier.exists_sourceForm (mem_sourceAlternates_of_mem hform)
  have hx : x = String.ofList (stem ++ (compiled.toList ++ rest)) := by
    rw [← String.toList_inj, String.toList_ofList, hform.specifier_eq]
  have hform' : form = String.ofList (stem ++ (source.toList ++ rest)) := by
    rw [← String.toList_inj, String.toList_ofList, hform.form_eq]
  have hrest : ∀ c ∈ rest.head?, c = '?' ∨ c = '#' := by
    intro c hc
    have hmarked := hform.rest_marked c hc
    rw [Specifier.inPath, Bool.and_eq_false_iff, bne_eq_false_iff_eq,
      bne_eq_false_iff_eq] at hmarked
    exact hmarked
  obtain ⟨hcompiled, hsource⟩ := isEnding_of_sourceForm hform
  rw [hx] at hu
  rw [hform']
  exact ⟨Url.parse_ending hcompiled hsource hrest hu h.notFile, h.long, h.notFile, h.notNode⟩

/-- The index of what has a foreign scheme has the same scheme. -/
theorem index (h : IsForeign scheme x) (hd : isDirectory x = true) :
    IsForeign scheme (x ++ "index" ++ ".js") := by
  obtain ⟨u, hu, rfl⟩ := h.parsed
  rw [String.append_assoc]
  exact ⟨Url.parse_append_index (Specifier.isDirectory_iff.mp hd) hu h.notFile, h.long, h.notFile,
    h.notNode⟩

end IsForeign

/-- A step that gives the URL that a text is read as, of the given scheme, and learns nothing. -/
def Answers (scheme x : String) (m : Step σ Target) : Prop :=
  ∃ u, Url.parse x = .ok u ∧ u.scheme = scheme ∧ ∀ st, m st = (.ok ⟨u, some .dynamic⟩, st)

/-- What answers does not fail, so that nothing is done about its failures. -/
theorem Answers.tryCatch {scheme : String} {m : Step σ Target} (h : Answers scheme x m)
    (handle : Fault → Step σ Target) :
    Answers scheme x (MonadExcept.tryCatch m handle) := by
  obtain ⟨u, hu, hscheme, hm⟩ := h
  refine ⟨u, hu, hscheme, fun st => ?_⟩
  rw [run_tryCatch, hm]

/-- The form of a specifier that a search tries first: of the index of a directory or of the
specifier itself the first source, if there is one. -/
def firstForm (specifier : String) (c : Context) : String :=
  let name := if isDirectory specifier then specifier ++ "index" ++ ".js" else specifier
  (prioritySources name c).headD name

namespace IsForeign

variable {scheme : String}

/-- The host answers with what is read. -/
theorem answers_askOr (h : IsForeign scheme x) (failed : Fault → Step σ Target) :
    Answers scheme x (askOr s (Host.resolve s) x c failed) := by
  obtain ⟨u, hu, rfl⟩ := h.parsed
  refine ⟨u, hu, rfl, fun st => ?_⟩
  have hformat : decided s ⟨u, none⟩ st.packages = (.ok ⟨u, some .dynamic⟩, st.packages) := by
    have hfile : (u.scheme == "file") = false := by simpa using h.notFile
    simp only [decided, inferredFormat, hfile]
    rfl
  rw [run_askOr, Host.resolve_of_parse hu h.long h.notNode (Specifier.isPath_of_parse hu h.notFile)]
  dsimp only [run_pure]
  rw [run_decideFormat, hformat]

/-- An attempt that asks for no directory comes to the sources of its specifier. -/
theorem attempt_eq_searchUnmapped (h : IsForeign scheme x) (hd : isDirectory x = false)
    (next : Resolver σ) (again : Again σ) (fallback : Fallback) :
    attempt s next again x c fallback = searchUnmapped s next again x c fallback := by
  rw [attempt_eq]
  dsimp only
  rw [h.withoutNodePrefix_eq, hd, h.mappedUrls_eq]
  rfl

/-- Without sources, the specifier itself is the answer. -/
theorem answers_of_no_source (h : IsForeign scheme x) (hd : isDirectory x = false)
    (hnone : prioritySources x c = []) (depth : Nat) (fallback : Fallback) :
    Answers scheme x
      (resolveWithin s (Host.resolve s) c (depth + 1) x fallback : Step σ Target) := by
  rw [resolveWithin, h.attempt_eq_searchUnmapped hd, searchUnmapped, hnone]
  exact h.answers_askOr _

/-- The first source is the answer where there is one. -/
theorem answers_file (h : IsForeign scheme x) (hd : isDirectory x = false) (depth : Nat)
    (fallback : Fallback) : Answers scheme ((prioritySources x c).headD x)
      (resolveWithin s (Host.resolve s) c (depth + 2) x fallback : Step σ Target) := by
  cases hsources : prioritySources x c with
  | nil => exact h.answers_of_no_source hd hsources (depth + 1) fallback
  | cons form rest =>
    have hmem : form ∈ prioritySources x c := by
      rw [hsources]
      exact List.mem_cons_self
    have hforeign := h.source hmem
    have hfile : isDirectory form = false :=
      (Derived.source hd hmem : Derived c x fallback form).isDirectory_eq
    have hnone : prioritySources form c = [] := by
      have hno := Specifier.sourceAlternates_of_mem (c := s.capabilities)
        (mem_sourceAlternates_of_mem hmem)
      rw [hforeign.withoutNodePrefix_eq] at hno
      simp [prioritySources, hno]
    rw [resolveWithin, h.attempt_eq_searchUnmapped hd, searchUnmapped, hsources]
    exact (hforeign.answers_of_no_source hfile hnone depth .nested).tryCatch _

/-- A foreign URL is answered in its first form, however many attempts are left. -/
theorem answers (h : IsForeign scheme x) (depth : Nat) (fallback : Fallback) :
    Answers scheme (firstForm x c)
      (resolveWithin s (Host.resolve s) c (depth + 3) x fallback : Step σ Target) := by
  unfold firstForm
  cases hd : isDirectory x with
  | false => exact h.answers_file hd (depth + 1) fallback
  | true =>
    have hfile : isDirectory (x ++ "index" ++ ".js") = false :=
      isDirectory_append_extension (by decide)
    have hanswers : Answers scheme _ (resolveWithin s (Host.resolve s) c (depth + 2)
        (x ++ "index" ++ ".js") .nested : Step σ Target) :=
      (h.index hd).answers_file (c := c) (s := s) hfile depth .nested
    rw [resolveWithin, attempt_eq]
    dsimp only
    rw [h.withoutNodePrefix_eq, hd, if_pos rfl, probeDirectory, hd, if_pos rfl]
    exact (hanswers.tryCatch _).tryCatch _

end IsForeign

/-- A specifier with a scheme that is neither that of files nor that of the host comes to the URL
that its first form is read as, of the same scheme, without a format of its own, whatever the files
and the projects are: the specifier itself, unless it ends in a slash or a source takes its
place. -/
theorem resolve_foreign (hscheme : Specifier.hasScheme x = true) (hparse : Url.parse x = .ok u)
    (hfile : u.scheme ≠ "file") (hnode : u.scheme ≠ "node") (s : Session) (c : Context)
    (st : State σ) :
    ∃ u', resolve s (Host.resolve s) x c st = (.ok ⟨u', some .dynamic⟩, st) ∧
      Url.parse (firstForm x c) = .ok u' ∧ u'.scheme = u.scheme ∧
      (isDirectory x = false → prioritySources x c = [] → u' = u) := by
  have hlong : 1 < u.scheme.length := by
    rw [Specifier.hasScheme, hparse] at hscheme
    simpa using ((Bool.and_eq_true _ _).mp hscheme).2
  have hforeign : IsForeign u.scheme x := ⟨⟨u, hparse, rfl⟩, hlong, hfile, hnode⟩
  obtain ⟨u', hu', hscheme', hrun⟩ := hforeign.answers (c := c) (s := s) 3 .allowed
  refine ⟨u', ?_, hu', hscheme', fun hd hnone => ?_⟩
  · rw [run_resolve, depthLimit, hrun]
    rfl
  · rw [firstForm, hd, if_neg Bool.false_ne_true, hnone, List.headD_nil, hparse] at hu'
    exact (Except.ok.inj hu').symm

/-- For a source, the URL of a script on another host comes to a source as well. -/
theorem resolve_foreign_source :
    let s := Session.withoutProjects {} { cwd := ⟨"/w"⟩ }
    let c : Context := { parent := Url.ofPath? ⟨"/w/main.ts"⟩ }
    ∃ u u', Specifier.hasScheme "https://esm.sh/a.js?x" = true ∧
      Url.parse "https://esm.sh/a.js?x" = .ok u ∧ u.scheme ≠ "file" ∧ u.scheme ≠ "node" ∧
      u'.text = "https://esm.sh/a.ts?x" ∧
      resolve s (Host.resolve s) "https://esm.sh/a.js?x" c ⟨{}, ()⟩ =
        (.ok ⟨u', some .dynamic⟩, ⟨{}, ()⟩) := by
  intro s c
  let u (name : String) : Url :=
    ⟨"https", some ⟨"", some (.domain "esm.sh"), none⟩, .segments [name], some "x", none⟩
  have hscheme : Specifier.hasScheme "https://esm.sh/a.js?x" = true := by decide +kernel
  have hparse : Url.parse "https://esm.sh/a.js?x" = .ok (u "a.js") := by decide +kernel
  have hform : Url.parse (firstForm "https://esm.sh/a.js?x" c) = .ok (u "a.ts") := by decide +kernel
  obtain ⟨u', hrun, hu', -⟩ :=
    resolve_foreign hscheme hparse (by decide) (by decide) s c ⟨{}, ()⟩
  obtain rfl := Except.ok.inj (hform.symm.trans hu')
  exact ⟨u "a.js", u "a.ts", hscheme, hparse, by decide, by decide, by decide +kernel, hrun⟩

/-- The URL of a foreign scheme is not left to the host where it ends in a slash. -/
theorem not_forall_resolve_foreign :
    ¬ ∀ (s : Session) (c : Context) (st : State Unit) (x : String) (u : Url),
      Specifier.hasScheme x = true → Url.parse x = .ok u → u.scheme ≠ "file" → u.scheme ≠ "node" →
        Specifier.isBuiltin x = false →
        (resolve s (Host.resolve s) x c st).1 = .ok ⟨u, some .dynamic⟩ := by
  intro h
  have heq := h (Session.withoutProjects {} { cwd := ⟨"/w"⟩ }) {} ⟨{}, ()⟩ "https://esm.sh/"
    ⟨"https", some ⟨"", some (.domain "esm.sh"), none⟩, .segments [""], none, none⟩
    (by decide +kernel) (by decide +kernel) (by decide) (by decide) (by decide +kernel)
  exact absurd heq (by decide +kernel)

end Search

end ScriptModules.Resolve

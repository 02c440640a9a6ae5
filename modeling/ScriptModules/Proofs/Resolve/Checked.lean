import ScriptModules.Proofs.Resolve.Asked
import ScriptModules.Proofs.Resolve.Foreign
import ScriptModules.Proofs.Resolve.Formats

/-!
# Files that are there

The host looks for every file but those whose URL is written in a way that does not count as a
path. Such a URL is taken as it is read.
-/

namespace ScriptModules.Resolve

variable {σ : Type} {s : Session} {c : Context} {specifier : String} {st : State σ}

/-- A file stands where a URL points to. -/
def Stands (s : Session) (u : Url) : Prop :=
  ∃ p, u.toPath? = some p ∧ s.files.isFile p = true

/-- A specifier that is read as the URL of a file, but is no path. -/
structure Unchecked (specifier : String) (u : Url) : Prop where
  parsed : Url.parse specifier = .ok u
  scheme : u.scheme = "file"
  notPath : Specifier.isPath specifier = false

namespace Host

/-- A file is only found where one stands. -/
theorem stands_resolveFile (url : Url) (specifier : String) :
    Gives (fun t _ => Stands s t.url) (resolveFile s url specifier c : Step σ Target) := by
  unfold resolveFile
  cases hpath : url.toPath? with
  | none => exact .throw _
  | some path =>
    dsimp only
    split
    · exact .throw _
    · split
      · exact .throw _
      · rename_i hfile
        exact .bind fun format? => .pure fun _ => ⟨path, hpath, by simpa using hfile⟩

/-- The host gives the URL of a file only where it stands, or as it is read. -/
theorem stands_or_unchecked : Gives
    (fun t _ => t.url.scheme = "file" → Stands s t.url ∨ Unchecked specifier t.url)
    (resolve s specifier c : Step σ Target) := by
  refine gives_resolve ?_ (fun url specifier => ?_) ?_
  · intro url hnode packages hfile
    rw [hnode] at hfile
    exact absurd hfile (by decide)
  · intro st t after heq hfile
    exact Or.inl (stands_resolveFile url specifier st t after heq)
  · intro url hpath hparse packages hfile
    exact Or.inr ⟨hparse, hfile, hpath⟩

/-- Whatever files there are, an unchecked specifier is taken as it is read. -/
theorem resolve_unchecked {u : Url} (h : Unchecked specifier u) (s : Session) (c : Context) :
    (resolve s specifier c : Step σ Target) = pure ⟨u, none⟩ := by
  apply resolve_of_parse h.parsed ?_ ?_ h.notPath <;> rw [h.scheme] <;> decide

end Host

namespace Search

/-- What was found is where the last call found it. -/
theorem exists_last_call {next : Resolver σ} {t : Target}
    (h : (resolve s next specifier c st).1 = .ok t) :
    ∃ call ∈ (observe s next specifier c st).2.getLast?,
      ∃ t', call.answer = .ok t' ∧ t'.url = t.url := by
  rw [← observe_fst] at h
  obtain ⟨calls, hcalls, hv⟩ := (simulation_settles s next c).resolveWithin depthLimit specifier
    .allowed ⟨st.packages, (st.host, [])⟩
  have hlog : (observe s next specifier c st).2 = calls := by
    simpa [observe, run_resolve] using hcalls
  have hok : (resolveWithin s (recorded next) c depthLimit specifier .allowed
      ⟨st.packages, (st.host, [])⟩).1 = .ok t := by
    simp only [observe, run_resolve] at h
    generalize (resolveWithin s (recorded next) c depthLimit specifier .allowed
      ⟨st.packages, (st.host, [])⟩).1 = outcome at h
    cases outcome with
    | error f => cases h
    | ok t' => exact h
  rw [hok] at hv
  rw [hlog]
  generalize hout : Except.ok t = outcome at hv
  cases hv with
  | exhausted => cases hout
  | fatal => cases hout
  | @found calls call t' _ ht =>
    exact ⟨call, List.getLast?_concat, t', ht, (decided_ok hout.symm).1.symm⟩

/-- A specifier that is a path, or that holds no colon that could end a scheme. -/
def Schemeless (x : String) : Prop := Specifier.hasPathFront x = true ∨ ':' ∉ x.toList

/-- A path is never left unchecked. -/
theorem Schemeless.not_unchecked {x : String} {u : Url} (h : Schemeless x) : ¬ Unchecked x u := by
  rintro ⟨hparse, -, hpath⟩
  rcases h with hfront | hcolon
  · rw [Specifier.isPath_of_hasPathFront hfront] at hpath
    cases hpath
  · obtain ⟨r, hr⟩ := Url.splitScheme?_of_parse hparse
    obtain ⟨name, hname, -⟩ := Url.splitScheme?_eq_some_iff.mp hr
    have hmem : ':' ∈ Url.clean x := by simp [hname]
    exact hcolon (Url.clean_subset x hmem)

/-- A path stays one without the prefix of built-in modules. -/
theorem Schemeless.withoutNodePrefix {x : String} (h : Schemeless x)
    (capabilities : Host.Capabilities) :
    Schemeless (Specifier.withoutNodePrefix capabilities x) := by
  rcases h with hfront | hcolon
  · rw [Specifier.withoutNodePrefix_of_hasPathFront hfront]
    exact Or.inl hfront
  · exact Or.inr fun hmem => hcolon ((Specifier.withoutNodePrefix_suffix _ _).subset hmem)

/-- What is derived from a specifier brings in no colon. -/
theorem Derived.schemeless {x form : String} {fallback : Fallback} (h : Derived c x fallback form)
    (hx : Schemeless x) : Schemeless form := by
  rcases hx with hfront | hcolon
  · exact Or.inl (h.hasPathFront hfront)
  · have hextension : ∀ e ∈ extensions, ':' ∉ e.toList := by decide
    right
    cases h with
    | source _ hsource =>
      obtain ⟨stem, compiled, source, rest, hform⟩ :=
        Specifier.exists_sourceForm (mem_sourceAlternates_of_mem hsource)
      have hplain : ':' ∉ source.toList := by
        rcases hform.extensions_eq with ⟨-, rfl⟩ | ⟨-, rfl⟩ | ⟨-, rfl⟩ | ⟨-, rfl⟩ | ⟨-, rfl⟩ <;>
          decide
      rw [hform.specifier_eq] at hcolon
      rw [hform.form_eq]
      simp only [List.mem_append, not_or] at hcolon ⊢
      exact ⟨hcolon.1, hplain, hcolon.2.2⟩
    | index _ he => simp [hcolon, hextension _ he]
    | indexBelow _ _ he => simp [hcolon, hextension _ he]
    | extended _ _ he => simp [hcolon, hextension _ he]

/-- From specifiers without a scheme, attempts go on to such specifiers. -/
theorem kept_schemeless (s : Session) (c : Context) : Kept s c fun x _ => Schemeless x where
  mapped _ hu := Or.inl (hasPathFront_of_mem_mappedUrls hu).2
  derived hx hform := hform.schemeless (hx.withoutNodePrefix _)

/-- A file that a search comes to is there, unless the specifier has a scheme and the last thing
that the host was asked for is a URL of the file that is no path: the host takes any such URL as it
is read, whether the file is there or not. -/
theorem resolve_file_checked {t : Target}
    (h : (resolve s (Host.resolve s) specifier c st).1 = .ok t) (hfile : t.url.scheme = "file") :
    Stands s t.url ∨ ¬ Schemeless specifier ∧
      ∃ call ∈ (observe s (Host.resolve s) specifier c st).2.getLast?,
        Unchecked call.specifier t.url ∧ ∀ (s' : Session) (c' : Context),
          (Host.resolve s' call.specifier c' : Step σ Target) = pure ⟨t.url, none⟩ := by
  obtain ⟨call, hlast, t', hanswer, hurl⟩ := exists_last_call h
  have hmem := List.mem_of_getLast? hlast
  obtain ⟨before, after, hrun⟩ := exists_answer_of_mem_observe hmem
  rw [hanswer] at hrun
  have hchecked := Host.stands_or_unchecked before t' after hrun
  dsimp only at hchecked
  rw [hurl] at hchecked
  rcases hchecked hfile with hstands | hunchecked
  · exact Or.inl hstands
  · refine Or.inr ⟨fun hspecifier => ?_, call, hlast, hunchecked, Host.resolve_unchecked hunchecked⟩
    have hcall : Schemeless call.specifier :=
      (kept_schemeless s c).of_mem_observe (fun x _ hx _ => hx.withoutNodePrefix _) hspecifier hmem
    exact hcall.not_unchecked hunchecked

/-- In a session without files, a URL with one slash comes to a file that is not there. -/
theorem resolve_file_checked_absent :
    let s := Session.withoutProjects {} { cwd := ⟨"/w"⟩ }
    let u : Url := ⟨"file", some {}, .segments ["w", "a.mjs"], none, none⟩
    (resolve s (Host.resolve s) "file:/w/a.mjs" {} (⟨{}, ()⟩ : State Unit)).1 =
        .ok ⟨u, some .module⟩ ∧ u.scheme = "file" ∧ ¬ Stands s u ∧
      ∃ call ∈ (observe s (Host.resolve s) "file:/w/a.mjs" {} (⟨{}, ()⟩ : State Unit)).2.getLast?,
        Unchecked call.specifier u := by
  intro s u
  have hok : (resolve s (Host.resolve s) "file:/w/a.mjs" {} (⟨{}, ()⟩ : State Unit)).1 =
      .ok ⟨u, some .module⟩ := by decide +kernel
  have hno : ¬ Stands s u := by
    rintro ⟨p, hp, hstands⟩
    have hpath : u.toPath? = some ⟨"/w/a.mjs"⟩ := by decide +kernel
    obtain rfl := Option.some.inj (hpath.symm.trans hp)
    exact absurd hstands (by decide +kernel)
  obtain ⟨-, call, hlast, hunchecked, -⟩ := (resolve_file_checked hok rfl).resolve_left hno
  exact ⟨hok, rfl, hno, call, hlast, hunchecked⟩

/-- A file that a search comes to need not be there. -/
theorem not_forall_stands :
    ¬ ∀ (s : Session) (c : Context) (st : State Unit) (specifier : String) (t : Target),
      (resolve s (Host.resolve s) specifier c st).1 = .ok t → t.url.scheme = "file" →
        Stands s t.url := by
  intro h
  let u : Url := ⟨"file", some {}, .segments ["a.json"], none, none⟩
  obtain ⟨p, hp, hstands⟩ := h (Session.withoutProjects {} { cwd := ⟨"/w"⟩ }) {} ⟨{}, ()⟩
    "file:/a.json" ⟨u, some .json⟩ (by decide +kernel) rfl
  have hpath : u.toPath? = some ⟨"/a.json"⟩ := by decide +kernel
  obtain rfl := Option.some.inj (hpath.symm.trans hp)
  exact absurd hstands (by decide +kernel)

end Search

end ScriptModules.Resolve

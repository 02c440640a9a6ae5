import ScriptModules.Proofs.Package.Again
import ScriptModules.Proofs.Resolve.Agreement
import ScriptModules.Proofs.Url.FilePath
import ScriptModules.Proofs.Url.Foreign

/-!
# The format of a file that was resolved

However a search comes to a file, its format is what its URL and the package around it tell. Asked
for again, they tell the same, and nothing more is learned.
-/

namespace ScriptModules.Resolve

open Package (Cache)

variable {σ α β : Type} {s : Session} {u : Url} {q : Path} {c : Context} {specifier : String}

/-- A step whose result, if it gives one, has a property together with the packages it leaves. -/
def Gives (Q : α → Cache → Prop) (m : Step σ α) : Prop :=
  ∀ st a after, m st = (.ok a, after) → Q a after.packages

namespace Gives

variable {Q : β → Cache → Prop}

/-- A step that fails gives nothing. -/
theorem throw (f : Fault) : Gives Q (MonadExcept.throw f : Step σ β) := by
  intro st b after h
  cases congrArg Prod.fst h

/-- What is returned has the property if it has it with all packages. -/
theorem pure {b : β} (h : ∀ packages, Q b packages) : Gives Q (Pure.pure b : Step σ β) := by
  intro st b' after heq
  obtain ⟨hb, rfl⟩ := Prod.mk.inj heq
  obtain rfl := Except.ok.inj hb
  exact h _

/-- A result has the property if it has it with all packages. -/
theorem lift {x : Except Fault β} (h : ∀ b, x = .ok b → ∀ packages, Q b packages) :
    Gives Q (liftM x : Step σ β) := by
  intro st b after heq
  obtain ⟨hb, rfl⟩ := Prod.mk.inj heq
  exact h b hb _

/-- What steps give one after the other is what the last of them gives. -/
theorem bind {m : Step σ α} {next : α → Step σ β} (h : ∀ a, Gives Q (next a)) :
    Gives Q (m >>= next) := by
  intro st b after heq
  obtain ⟨a, between, -, hnext⟩ := Run.exists_of_bind_eq_ok heq
  exact h a between b after hnext

end Gives

namespace Host

variable {Q : Target → Cache → Prop}

/-- What is given of files is given of a file at a path. -/
theorem gives_fileAt (h : ∀ url specifier, Gives Q (resolveFile s url specifier c : Step σ Target))
    (p : Path) : Gives Q (do resolveFile s (← fileUrl p) specifier c : Step σ Target) :=
  .bind fun url => h url specifier

/-- What is given of files is given of packages. -/
theorem gives_resolvePackage
    (h : ∀ url specifier, Gives Q (resolveFile s url specifier c : Step σ Target)) :
    Gives Q (resolvePackage s specifier c : Step σ Target) := by
  unfold resolvePackage
  dsimp only
  split
  · exact .throw _
  · refine .bind fun manifest => ?_
    split
    · split
      · exact .throw _
      · exact gives_fileAt h _
    · exact gives_fileAt h _

/-- What is given of files is given of imports of the package itself. -/
theorem gives_resolveImport
    (h : ∀ url specifier, Gives Q (resolveFile s url specifier c : Step σ Target)) :
    Gives Q (resolveImport s specifier c : Step σ Target) := by
  unfold resolveImport
  refine .bind fun nearest => ?_
  rcases nearest with _ | ⟨manifest, value⟩
  · exact .throw _
  · dsimp only
    split
    · exact .throw _
    · split
      · exact gives_fileAt h _
      · exact gives_resolvePackage h

/-- What holds of built-in modules is given of them. -/
theorem gives_resolveBuiltin
    (h : ∀ url, url.scheme = "node" → ∀ packages, Q ⟨url, some .builtin⟩ packages) (name : String) :
    Gives Q (liftM (resolveBuiltin specifier name) : Step σ Target) := by
  refine .lift fun t ht packages => ?_
  unfold resolveBuiltin at ht
  split at ht
  · cases ht
  · split at ht
    · rename_i url hparse
      obtain rfl := Except.ok.inj ht
      exact h url (Url.scheme_of_parse_node hparse) packages
    · cases ht

/-- The host gives a module of its own, a file that it looks for, or a URL that is no path as it is
read. -/
theorem gives_resolve
    (hbuiltin : ∀ url, url.scheme = "node" → ∀ packages, Q ⟨url, some .builtin⟩ packages)
    (hfile : ∀ url specifier, Gives Q (resolveFile s url specifier c : Step σ Target))
    (hurl : ∀ url, Specifier.isPath specifier = false → Url.parse specifier = .ok url →
      ∀ packages, Q ⟨url, none⟩ packages) : Gives Q (resolve s specifier c : Step σ Target) := by
  unfold resolve
  split
  · split
    · exact gives_resolveBuiltin hbuiltin _
    · exact .throw _
  · split
    · exact gives_resolveBuiltin hbuiltin _
    · split
      · refine .bind fun base => ?_
        split
        · exact hfile _ _
        · exact .throw _
      · rename_i hpath
        split
        · split
          · exact .pure (hurl _ (by simpa using hpath) ‹_›)
          · exact .throw _
        · split
          · exact gives_resolveImport hfile
          · exact gives_resolvePackage hfile

end Host

/-- What is asked of a file and its URL: the URL names the file and tells the same extension, which
is not that of binary modules. -/
structure Tellable (u : Url) (q : Path) : Prop where
  scheme : u.scheme = "file"
  path : u.toPath? = some q
  extension : Location.extension? u.path = q.extension?.map Url.encodeName
  notBinary : q.extension? ≠ some "wasm"

/-- The format that the packages tell of a URL, without learning anything. -/
def Settled (s : Session) (u : Url) (format : ModuleFormat) (packages : Cache) : Prop :=
  Search.inferredFormat s u packages = (.ok format, packages)

/-- What is inferred is inferred again. -/
theorem settled_of_inferredFormat {packages after : Cache} {format : ModuleFormat}
    (h : Search.inferredFormat s u packages = (.ok format, after)) : Settled s u format after := by
  have hsame {result : Except Project.Fault ModuleFormat}
      (heq : (result, packages) = (.ok format, after)) : (result, after) = (.ok format, after) := by
    obtain ⟨rfl, -⟩ := Prod.mk.inj heq
    rfl
  unfold Settled Search.inferredFormat at *
  split
  · rename_i hscheme
    rw [if_pos hscheme] at h
    cases hformat : Location.classify u.path with
    | some known =>
      rw [hformat] at h
      exact hsame h
    | none =>
      rw [hformat] at h
      cases hpath : u.toPath? with
      | none =>
        rw [hpath] at h
        exact hsame h
      | some path =>
        rw [hpath] at h
        exact Cache.packageType_again h
  · rename_i hscheme
    rw [if_neg hscheme] at h
    exact hsame h

/-- The format of such a URL is told by its location, or else by its package. -/
theorem Tellable.inferredFormat_eq (h : Tellable u q) (packages : Cache) :
    Search.inferredFormat s u packages = match Location.classify u.path with
      | some format => (.ok format, packages)
      | none => packages.packageType s.files q := by
  rw [Search.inferredFormat, h.scheme, h.path, if_pos (beq_self_eq_true _)]
  cases Location.classify u.path <;> rfl

/-- A target at the URL has no format yet, or the one that the packages tell. -/
def Undecided (s : Session) (u : Url) (t : Target) (packages : Cache) : Prop :=
  t.url = u → t.format = none ∨ ∃ format, t.format = some format ∧ Settled s u format packages

/-- A target at the URL has the format that the packages tell. -/
def Decided (s : Session) (u : Url) (t : Target) (packages : Cache) : Prop :=
  t.url = u → ∃ format, t.format = some format ∧ Settled s u format packages

namespace Host

/-- The host tells the format of a file by its extension as the URL does. -/
theorem formatOf_settled (h : Tellable u q) : Gives
    (fun format? packages => format? = none ∨
      ∃ format, format? = some format ∧ Settled s u format packages)
    (formatOf s q : Step σ (Option ModuleFormat)) := by
  have hknown {extension : String} {format : ModuleFormat} (hq : q.extension? = some extension)
      (hencoded : Url.encodeName extension = extension)
      (hclass : ∀ location, Location.extension? location = some extension →
        Location.classify location = some format) :
      Gives (fun format? packages => format? = none ∨
        ∃ format, format? = some format ∧ Settled s u format packages)
        (pure (some format) : Step σ (Option ModuleFormat)) := by
    have hu := h.extension
    rw [hq, Option.map_some, hencoded] at hu
    refine .pure fun packages => Or.inr ⟨format, rfl, ?_⟩
    rw [Settled, h.inferredFormat_eq, hclass _ hu]
  unfold formatOf
  split
  case h_1 hq => exact hknown hq (by decide) fun _ hl => by simp [Location.classify, hl]
  case h_2 hq => exact hknown hq (by decide) fun _ hl => by simp [Location.classify, hl]
  case h_3 hq => exact hknown hq (by decide) fun _ hl => by simp [Location.classify, hl]
  case h_4 hq => exact absurd hq h.notBinary
  case h_5 hq =>
    have hu := h.extension
    rw [hq, Option.map_some, show Url.encodeName "js" = "js" by decide] at hu
    have hclass : Location.classify u.path = none := by simp [Location.classify, hu]
    intro st format? after heq
    rw [run_bind, run_askPackages] at heq
    rcases htype : st.packages.packageType s.files q with ⟨f | format, packages⟩ <;>
      rw [htype] at heq
    · cases congrArg Prod.fst heq
    · obtain ⟨hformat, rfl⟩ := Prod.mk.inj heq
      obtain rfl := Except.ok.inj hformat
      refine Or.inr ⟨format, rfl, ?_⟩
      rw [Settled, h.inferredFormat_eq, hclass]
      exact Cache.packageType_again htype
  case h_6 => exact .pure fun _ => Or.inl rfl

/-- A file is found without a format, or with the one that the packages tell. -/
theorem undecided_resolveFile (h : Tellable u q) (url : Url) (specifier : String) :
    Gives (Undecided s u) (resolveFile s url specifier c : Step σ Target) := by
  unfold resolveFile
  cases hpath : url.toPath? with
  | none => exact .throw _
  | some path =>
    dsimp only
    split
    · exact .throw _
    · split
      · exact .throw _
      · intro st t after heq hurl
        obtain ⟨format?, between, hformat, hpure⟩ := Run.exists_of_bind_eq_ok heq
        obtain ⟨ht, rfl⟩ := Prod.mk.inj hpure
        obtain rfl := Except.ok.inj ht
        obtain rfl : url = u := hurl
        obtain rfl : path = q := Option.some.inj (hpath.symm.trans h.path)
        exact formatOf_settled h st format? between hformat

/-- Where the host tells the format of a file, it is the one that the packages tell. -/
theorem undecided_resolve (h : Tellable u q) :
    Gives (Undecided s u) (resolve s specifier c : Step σ Target) := by
  refine gives_resolve ?_ (undecided_resolveFile h) fun url _ _ packages _ => Or.inl rfl
  intro url hscheme packages hurl
  rw [show url = u from hurl, h.scheme] at hscheme
  exact absurd hscheme (by decide)

end Host

namespace Search

/-- What the host left undecided is inferred. -/
theorem decided_of_undecided {t t' : Target} {packages after : Cache}
    (h : Undecided s u t packages) (hdecided : decided s t packages = (.ok t', after)) :
    Decided s u t' after := by
  intro hurl
  unfold decided at hdecided
  split at hdecided
  · rename_i hformat
    obtain ⟨ht, rfl⟩ := Prod.mk.inj hdecided
    obtain rfl := Except.ok.inj ht
    exact (h hurl).resolve_left (Option.isSome_iff_ne_none.mp hformat)
  · rcases hinferred : inferredFormat s t.url packages with ⟨f | format, between⟩ <;>
      rw [hinferred] at hdecided
    · cases congrArg Prod.fst hdecided
    · obtain ⟨ht, rfl⟩ := Prod.mk.inj hdecided
      obtain rfl := Except.ok.inj ht
      rw [show t.url = u from hurl] at hinferred
      exact ⟨format, rfl, settled_of_inferredFormat hinferred⟩

/-- Everything that a search is made of gives targets with the format that the packages tell. -/
theorem simulation_gives (h : Tellable u q) (c : Context) :
    Simulation s s (Host.resolve s : Resolver σ) (Host.resolve s : Resolver σ) c
      fun (m : Step σ Target) (_ : Step σ Target) => Gives (Decided s u) m where
  fails f _ := .throw f
  catches := by
    intro m _ handle _ hm hhandle st t after heq
    rw [run_tryCatch] at heq
    rcases hrun : m st with ⟨f | t', between⟩ <;> rw [hrun] at heq
    · exact hhandle.rel (fun f => .throw f) f between t after heq
    · obtain ⟨ht, rfl⟩ := Prod.mk.inj heq
      obtain rfl := Except.ok.inj ht
      exact hm st t' between hrun
  asks := by
    intro specifier failed _ hfailed st t after heq
    rw [run_askOr] at heq
    rcases hrun : Host.resolve s specifier c st with ⟨f | t', between⟩ <;> rw [hrun] at heq
    · exact hfailed.rel (fun f => .throw f) f between t after heq
    · have hundecided := Host.undecided_resolve h st t' between hrun
      dsimp only at heq
      rw [run_decideFormat] at heq
      obtain ⟨ht, rfl⟩ := Prod.mk.inj heq
      exact decided_of_undecided hundecided (Prod.ext ht rfl)

/-- A file that was resolved has the format that the packages tell. -/
theorem settled_of_resolve (h : Tellable u q) {st after : State σ} {format? : Option ModuleFormat}
    (hresolve : resolve s (Host.resolve s) specifier c st = (.ok ⟨u, format?⟩, after)) :
    ∃ format, format? = some format ∧ Settled s u format after.packages := by
  rw [run_resolve] at hresolve
  obtain ⟨ht, rfl⟩ := Prod.mk.inj hresolve
  have hgives := (simulation_gives (s := s) h c).resolveWithin depthLimit specifier .allowed st
  rcases hrun : resolveWithin s (Host.resolve s) c depthLimit specifier .allowed st with
    ⟨f | t, after⟩ <;> rw [hrun] at ht
  · cases ht
  · obtain rfl := Except.ok.inj ht
    exact hgives _ after hrun rfl

end Search

end ScriptModules.Resolve

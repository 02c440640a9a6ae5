import Mathlib.Data.Prod.Basic
import ScriptModules.Proofs.Files.Normalized
import ScriptModules.Proofs.Package.Targets
import ScriptModules.Proofs.Resolve.Checked

/-!
# Packages that export

A bare specifier comes to a package by its own name or by that of an import. Where the manifest of
the package has a table of exports, the host takes the target that the table gives. A relative
target is a file below the directory of the package; an absolute one is taken as it is, wherever it
leads.
-/

namespace ScriptModules.Resolve.Host

open Json (Value)
open Package (Cache)

variable {σ : Type} {s : Session} {c : Context} {specifier name target : String} {dir p : Path}
  {st after : State σ} {t : Target} {packages packages' : Cache}

/-- The name of a package that a bare specifier asks for, and what is known of the packages then.
A name of the package's own asks for what the nearest manifest imports by it. -/
def packageAsked? (s : Session) (c : Context) (packages : Cache) (specifier : String) :
    Option (String × Cache) :=
  if Specifier.isBare specifier && !Specifier.isBuiltin specifier &&
      (Text.dropPrefix? Specifier.nodePrefix specifier).isNone then
    if specifier.toList.head? == some '#' then
      match packages.nearest s.files (baseDir s c) with
      | (.ok (some (_, value)), packages) => do
        let target ← Package.importTarget? (← value.get? "imports") specifier c.allConditions
        if Text.startsWith "./" target then none else some (target, packages)
      | _ => none
    else some (specifier, packages)
  else none

/-- The directory of an installed package. -/
def packageDir? (s : Session) (c : Context) (specifier : String) : Option Path :=
  ((baseDir s c).ancestors.map fun dir =>
    (dir.join "node_modules").join (splitPackage specifier).1).find? s.files.isDirectory

/-- What is asked of a package. -/
def subpathOf (specifier : String) : String :=
  if (splitPackage specifier).2 == "" then "." else "." ++ (splitPackage specifier).2

/-- The directory of a package, and the target that its table of exports gives. -/
def exported? (s : Session) (c : Context) (packages : Cache) (specifier : String) :
    Option (Path × String) := do
  let dir ← packageDir? s c specifier
  match packages.read s.files (dir.join "package.json") with
  | .ok (some manifest, _) =>
    let target ← Package.exportTarget? (← manifest.get? "exports") (subpathOf specifier)
      c.allConditions
    return (dir, target)
  | _ => none

/-- What a package exports is told by its manifest. -/
theorem exported?_eq_some (h : exported? s c packages specifier = some (dir, target)) :
    packageDir? s c specifier = some dir ∧ ∃ manifest packages' exports,
      packages.read s.files (dir.join "package.json") = .ok (some manifest, packages') ∧
        manifest.get? "exports" = some exports ∧
          Package.exportTarget? exports (subpathOf specifier) c.allConditions = some target := by
  unfold exported? at h
  obtain ⟨dir', hdir, h⟩ := Option.bind_eq_some_iff.mp h
  split at h
  · rename_i manifest packages' hread
    obtain ⟨exports, hexports, h⟩ := Option.bind_eq_some_iff.mp h
    obtain ⟨target', htarget, h⟩ := Option.bind_eq_some_iff.mp h
    obtain ⟨rfl, rfl⟩ := Prod.mk.inj (Option.some.inj h)
    exact ⟨hdir, manifest, packages', exports, hread, hexports, htarget⟩
  · cases h

/-- A specifier of a package is resolved in that package. -/
theorem resolve_of_packageAsked?
    (h : packageAsked? s c st.packages specifier = some (name, packages)) :
    resolve s specifier c st = resolvePackage s name c ⟨packages, st.host⟩ := by
  unfold packageAsked? at h
  split at h
  · rename_i hpackage
    simp only [Specifier.isBare, Bool.and_eq_true, Bool.not_eq_true', Option.isNone_iff_eq_none]
      at hpackage
    obtain ⟨⟨⟨hpath, hscheme⟩, hbuiltin⟩, hnode⟩ := hpackage
    rw [resolve, hnode]
    dsimp only
    rw [hbuiltin, hpath, hscheme]
    simp only [Bool.false_eq_true, if_false]
    split at h
    · rename_i hhash
      simp only [hhash, if_true]
      rw [resolveImport, run_bind, run_askPackages]
      split at h
      · rename_i manifest value packages' hnearest
        obtain ⟨imports, himports, h⟩ := Option.bind_eq_some_iff.mp h
        obtain ⟨target, htarget, h⟩ := Option.bind_eq_some_iff.mp h
        split at h
        · cases h
        · rename_i hname
          obtain ⟨rfl, rfl⟩ := Prod.mk.inj (Option.some.inj h)
          rw [hnearest]
          simp only [Except.mapError, himports, Option.bind_some, htarget, hname,
            Bool.false_eq_true, if_false]
      · cases h
    · rename_i hhash
      obtain ⟨rfl, rfl⟩ := Prod.mk.inj (Option.some.inj h)
      simp only [hhash, Bool.false_eq_true, if_false]
  · cases h

/-- A package with a table of exports takes its target. -/
theorem resolvePackage_of_exported? (st : State σ)
    (h : exported? s c st.packages specifier = some (dir, target)) :
    ∃ packages', (resolvePackage s specifier c : Step σ Target) st =
      (do resolveFile s (← fileUrl (dir.join target)) specifier c : Step σ Target)
        ⟨packages', st.host⟩ := by
  obtain ⟨hdir, manifest, packages', exports, hread, hexports, htarget⟩ := exported?_eq_some h
  refine ⟨packages', ?_⟩
  rw [packageDir?] at hdir
  rw [subpathOf] at htarget
  unfold resolvePackage
  dsimp only
  rw [hdir]
  dsimp only
  rw [run_bind, run_askPackages, hread]
  simp only [Except.mapError, Option.bind_some, hexports, htarget]

/-- The directory of a package is a path from the root. -/
theorem isAbsolute_of_packageDir? (h : packageDir? s c specifier = some dir) :
    dir.isAbsolute = true := by
  have hdirectory : s.files.isDirectory dir = true := List.find?_some h
  unfold Files.Tree.isDirectory at hdirectory
  split at hdirectory
  · rename_i hentry
    obtain ⟨way, hway, -⟩ := Files.Tree.entry_eq_ok hentry
    exact (Files.Tree.wayOf_eq_ok hway).2.1
  · cases hdirectory

/-- A URL that is looked for is given as it is. -/
theorem gives_url_resolveFile (url : Url) (specifier : String) :
    Gives (fun t _ => t.url = url) (resolveFile s url specifier c : Step σ Target) := by
  unfold resolveFile
  cases url.toPath? with
  | none => exact .throw _
  | some path =>
    dsimp only
    split
    · exact .throw _
    · split
      · exact .throw _
      · exact .bind fun format? => .pure fun _ => rfl

/-- A result does not depend on the state. -/
theorem run_lift {α : Type} (x : Except Fault α) (st : State σ) :
    (liftM x : Step σ α) st = (x, st) := by
  cases x <;> rfl

/-- A file that is looked for stands at the path, in its normal form. -/
theorem gives_fileAt_path (p : Path) (specifier : String) :
    Gives (fun t _ => ∃ q, t.url.toPath? = some q ∧ s.files.isFile q = true ∧
      q.parts = p.normalize.parts)
      (do resolveFile s (← fileUrl p) specifier c : Step σ Target) := by
  intro st t after h
  obtain ⟨url, between, hurl, hfile⟩ := Run.exists_of_bind_eq_ok h
  obtain ⟨q, hq, hstands⟩ := stands_resolveFile url specifier between t after hfile
  refine ⟨q, hq, hstands, ?_⟩
  rw [gives_url_resolveFile url specifier between t after hfile] at hq
  rw [run_lift] at hurl
  have hok : fileUrl p = .ok url := (Prod.mk.inj hurl).1
  unfold fileUrl at hok
  split at hok
  · rename_i u hu
    obtain rfl := Except.ok.inj hok
    exact Url.parts_of_ofPath? hu hq
  · cases hok

/-- What a package exports is a file of its own: the target, in the directory of the package. Only
an absolute target can lead out of that directory, and it leads wherever it says. -/
theorem resolve_exported (hasked : packageAsked? s c st.packages specifier = some (name, packages))
    (hexported : exported? s c packages name = some (dir, target))
    (h : resolve s specifier c st = (.ok t, after)) :
    ∃ p, t.url.toPath? = some p ∧ s.files.isFile p = true ∧
      p.parts = (dir.join target).normalize.parts ∧
        (p.startsWith dir.normalize = true ∨
          (⟨target⟩ : Path).isAbsolute = true ∧ dir.join target = ⟨target⟩) := by
  rw [resolve_of_packageAsked? hasked] at h
  obtain ⟨packages', hrun⟩ := resolvePackage_of_exported? ⟨packages, st.host⟩ hexported
  rw [hrun] at h
  obtain ⟨p, hp, hstands, hparts⟩ := gives_fileAt_path _ _ _ t after h
  refine ⟨p, hp, hstands, hparts, ?_⟩
  obtain ⟨hdir, -, -, exports, -, -, htarget⟩ := exported?_eq_some hexported
  cases habsolute : (⟨target⟩ : Path).isAbsolute with
  | true => exact Or.inr ⟨rfl, Path.join_of_isAbsolute habsolute⟩
  | false =>
    have hbelow := Path.startsWith_normalize_join (isAbsolute_of_packageDir? hdir) habsolute
      (Package.not_mem_pieces_of_stepsUp (Package.stepsUp_of_exportTarget? htarget))
    rw [Path.startsWith, ← hparts] at hbelow
    exact Or.inl hbelow

/-- A session with one package and a file next to it. The package exports one target. -/
def exporting (target : String) : Session :=
  let manifest := "\x7b\x22exports\x22:\x22" ++ target ++ "\x22\x7d"
  Session.withoutProjects
    (.write ["w", "node_modules", "pkg", "package.json"] (Text.utf8 manifest.toList)
      (.write ["w", "node_modules", "pkg", "a.mjs"] [] (.write ["w", "secret.mjs"] [] {})))
    { cwd := ⟨"/w"⟩ }

/-- A package exports a file of its own. -/
theorem resolve_exported_relative :
    let s := exporting "./a.mjs"
    let u : Url := ⟨"file", some {}, .segments ["w", "node_modules", "pkg", "a.mjs"], none, none⟩
    let dir : Path := ⟨"/w/node_modules/pkg"⟩
    packageAsked? s {} {} "pkg" = some ("pkg", {}) ∧
      exported? s {} {} "pkg" = some (dir, "./a.mjs") ∧
      (resolve s "pkg" {} (⟨{}, ()⟩ : State Unit)).1 = .ok ⟨u, some .module⟩ ∧
      ∃ p, u.toPath? = some p ∧ p.startsWith dir.normalize = true := by
  intro s u dir
  have hasked : packageAsked? s {} {} "pkg" = some ("pkg", {}) := rfl
  have hexported : exported? s {} {} "pkg" = some (dir, "./a.mjs") := by decide +kernel
  have hok : (resolve s "pkg" {} (⟨{}, ()⟩ : State Unit)).1 = .ok ⟨u, some .module⟩ := by
    decide +kernel
  have hasked' : packageAsked? s {} (⟨{}, ()⟩ : State Unit).packages "pkg" = some ("pkg", {}) :=
    hasked
  obtain ⟨p, hp, -, -, hbelow⟩ := resolve_exported hasked' hexported (Prod.fst_eq_iff.mp hok)
  have hrelative : ¬ (⟨"./a.mjs"⟩ : Path).isAbsolute = true := by decide
  exact ⟨hasked, hexported, hok, p, hp, hbelow.resolve_right fun h => hrelative h.1⟩

/-- A package exports a file that is not its own by the absolute path of the file. -/
theorem not_forall_startsWith :
    ¬ ∀ (s : Session) (c : Context) (st after : State Unit) (specifier name target : String)
        (packages : Cache) (dir : Path) (t : Target),
      packageAsked? s c st.packages specifier = some (name, packages) →
      exported? s c packages name = some (dir, target) →
      resolve s specifier c st = (.ok t, after) →
        ∃ p, t.url.toPath? = some p ∧ p.startsWith dir.normalize = true := by
  intro h
  let s := exporting "/w/secret.mjs"
  let u : Url := ⟨"file", some {}, .segments ["w", "secret.mjs"], none, none⟩
  have hok : (resolve s "pkg" {} (⟨{}, ()⟩ : State Unit)).1 = .ok ⟨u, some .module⟩ := by
    decide +kernel
  obtain ⟨p, hp, hbelow⟩ := h s {} ⟨{}, ()⟩ _ "pkg" "pkg" "/w/secret.mjs" {}
    ⟨"/w/node_modules/pkg"⟩ _ rfl (by decide +kernel) (Prod.fst_eq_iff.mp hok)
  have hpath : u.toPath? = some ⟨"/w/secret.mjs"⟩ := by decide +kernel
  obtain rfl := Option.some.inj (hpath.symm.trans hp)
  exact absurd hbelow (by decide)

end ScriptModules.Resolve.Host

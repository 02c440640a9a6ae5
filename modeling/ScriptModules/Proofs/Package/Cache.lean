import ScriptModules.Package.Cache
import ScriptModules.Proofs.Agreement
import ScriptModules.Proofs.Files.Walk

/-!
# What is known of packages

Whatever a cache holds was read from a manifest, under one spelling of its path. A question is
therefore answered the same whether little or much is known before it, unless the manifest has to
be read under a spelling that is too long.
-/

namespace ScriptModules.Package.Cache

open Files.Tree (TooLong)
open Json (Value)
open ScriptModules.Path (EndsInName IsName)
open Project (Fault)

variable {t : Files.Tree} {α : Type}

/-- What reading a manifest gives when nothing is known. -/
def found (t : Files.Tree) (manifest : Path) : Except Fault (Option Value) :=
  (read t {} manifest).map (·.1)

/-- The name of manifests is one piece. -/
theorem isName_manifest : IsName "package.json" := ⟨by decide, by decide, by decide⟩

/-- A known manifest is not read again. -/
theorem read_of_known {c : Cache} {p : Path} {value : Option Value}
    (h : c.manifests.lookup p.parts = some value) : read t c p = .ok (value, c) := by
  rw [read, h]

/-- A manifest that was read is known from then on. -/
theorem read_of_unknown {c : Cache} {p : Path} (h : c.manifests.lookup p.parts = none) :
    read t c p = (found t p).map fun value =>
      (value, { c with manifests := (p.parts, value) :: c.manifests }) := by
  have hnothing : ({} : Cache).manifests.lookup p.parts = none := rfl
  rw [found, read, read, h, hnothing]
  cases t.readText p with
  | error cause => cases cause <;> rfl
  | ok content => cases hparse : Json.parse content <;> simp [hparse, Except.map]

/-- What reading a manifest gives depends on what its text is, or why there is none. -/
theorem found_eq (t : Files.Tree) (p : Path) : found t p = match t.readText p with
    | .error .notFound => .ok none
    | .error cause => .error (.read p cause)
    | .ok content =>
      match Json.parse content with
      | .error cause => .error (.parse p cause)
      | .ok value => .ok (some value) := by
  have hnothing : ({} : Cache).manifests.lookup p.parts = none := rfl
  rw [found, read, hnothing]
  cases t.readText p with
  | error cause => cases cause <;> rfl
  | ok content => cases hparse : Json.parse content <;> simp [hparse, Except.map]

/-- A failure to read a manifest under a spelling that is too long. -/
def Exceeds (f : Fault) : Prop := ∃ p, TooLong p ∧ f = .read p .nameTooLong

/-- A manifest with too long a path cannot be read, nor found to be absent. -/
theorem exists_found_eq_of_tooLong {p : Path} (h : TooLong p) :
    ∃ cause, found t p = .error (.read p cause) := by
  rcases Files.Tree.readText_of_tooLong (t := t) h with hread | hread
  · exact ⟨.zeroInName, by rw [found_eq, hread]⟩
  · exact ⟨.nameTooLong, by rw [found_eq, hread]⟩

/-- A manifest that was read under one spelling reads the same under another, unless that is too
long. -/
theorem found_of_parts_eq {p q : Path} (hparts : p.parts = q.parts) (hp : EndsInName p)
    (hq : EndsInName q) {value : Option Value} (h : found t q = .ok value) :
    found t p = .ok value ∨ TooLong p ∧ found t p = .error (.read p .nameTooLong) := by
  have hshort : ¬ TooLong q := by
    intro hlong
    obtain ⟨cause, hfound⟩ := exists_found_eq_of_tooLong (t := t) hlong
    rw [hfound] at h
    cases h
  rcases Files.Tree.readText_congr (t := t) hparts hp hq hshort with hread | ⟨hlong, hread⟩
  · left
    rw [found_eq] at h ⊢
    rw [hread]
    cases htext : t.readText q with
    | error cause =>
      rw [htext] at h
      cases cause with
      | notFound => exact h
      | _ => cases h
    | ok content =>
      rw [htext] at h
      cases hparse : Json.parse content with
      | error cause => simp [hparse] at h
      | ok value => simpa [hparse] using h
  · right
    rw [found_eq, hread]
    exact ⟨hlong, rfl⟩

/-- Two spellings of a manifest do not read differently. -/
theorem found_unique {p q : Path} (hparts : p.parts = q.parts) (hp : EndsInName p)
    (hq : EndsInName q) {value value' : Option Value} (h : found t p = .ok value)
    (h' : found t q = .ok value') : value = value' := by
  rcases found_of_parts_eq hparts hp hq h' with hfound | ⟨-, hfound⟩ <;> rw [hfound] at h
  · exact (Except.ok.inj h).symm
  · cases h

/-- Something that was read from a manifest of the given parts. -/
def Stands (t : Files.Tree) (parts : List Path.Part) (value : Option Value) : Prop :=
  ∃ p : Path, EndsInName p ∧ p.parts = parts ∧ found t p = .ok value

/-- What some parts name is read in one way. -/
theorem Stands.unique {parts : List Path.Part} {value value' : Option Value}
    (h : Stands t parts value) (h' : Stands t parts value') : value = value' := by
  obtain ⟨p, hp, hparts, hfound⟩ := h
  obtain ⟨q, hq, hparts', hfound'⟩ := h'
  exact found_unique (hparts.trans hparts'.symm) hp hq hfound hfound'

/-- A cache that holds what stands in the files, and types that were declared there. -/
structure Sound (t : Files.Tree) (c : Cache) : Prop where
  manifests : ∀ parts value, c.manifests.lookup parts = some value → Stands t parts value
  types : ∀ parts format, c.types.lookup parts = some format →
    ∃ value, Stands t (parts ++ [.name "package.json"]) (some value) ∧ format = declaredFormat value

/-- To know nothing is sound. -/
theorem sound_empty (t : Files.Tree) : Sound t {} where
  manifests _ _ h := by simp at h
  types _ _ h := by simp at h

/-- All manifests that are known to one cache are known to another. -/
def Within (c c' : Cache) : Prop :=
  ∀ parts, (c.manifests.lookup parts).isSome = true → (c'.manifests.lookup parts).isSome = true

/-- Questions to sound caches, the second of which knows more. A manifest may have to be read under
a spelling that is too long for the first alone. -/
def comparison (t : Files.Tree) : Comparison Fault Cache := ⟨Sound t, Within, Exceeds⟩

/-- Reading as a question to a cache. -/
def reading (t : Files.Tree) (p : Path) : Run Fault Cache (Option Value) := fun c =>
  match read t c p with
  | .ok (value, c) => (.ok value, c)
  | .error f => (.error f, c)

/-- The first entry tells of its own parts, the others of all else. -/
theorem lookup_cons (key : List Path.Part) {β : Type} (value : β)
    (l : List (List Path.Part × β)) (parts : List Path.Part) :
    ((key, value) :: l).lookup parts = if parts = key then some value else l.lookup parts := by
  rw [List.lookup_cons]
  by_cases h : parts = key
  · simp [h]
  · simp [h, beq_eq_false_iff_ne.mpr h]

/-- Adding what stands in the files keeps a cache sound. -/
theorem Sound.withManifest {c : Cache} (h : Sound t c) {parts : List Path.Part}
    {value : Option Value} (hstands : Stands t parts value) :
    Sound t { c with manifests := (parts, value) :: c.manifests } where
  manifests := by
    intro parts' value' hlookup
    rw [lookup_cons] at hlookup
    split at hlookup
    · rename_i heq
      obtain rfl := Option.some.inj hlookup
      exact heq ▸ hstands
    · exact h.manifests parts' value' hlookup
  types := h.types

/-- What is known is not read again. -/
theorem reading_of_known {c : Cache} {p : Path} {value : Option Value}
    (h : c.manifests.lookup p.parts = some value) : reading t p c = (.ok value, c) := by
  rw [reading, read_of_known h]

/-- What is not known is read, and kept if it can be. -/
theorem reading_of_unknown {c : Cache} {p : Path} (h : c.manifests.lookup p.parts = none) :
    reading t p c = match found t p with
      | .ok value => (.ok value, { c with manifests := (p.parts, value) :: c.manifests })
      | .error f => (.error f, c) := by
  rw [reading, read_of_unknown h]
  cases found t p <;> rfl

/-- What is read from a sound cache stands in the files. -/
theorem Sound.stands_of_reading {c : Cache} (h : Sound t c) {p : Path} (hp : EndsInName p)
    {value : Option Value} (hread : (reading t p c).1 = .ok value) : Stands t p.parts value := by
  cases hlookup : c.manifests.lookup p.parts with
  | some known =>
    rw [reading_of_known hlookup] at hread
    obtain rfl := Except.ok.inj hread
    exact h.manifests _ _ hlookup
  | none =>
    rw [reading_of_unknown hlookup] at hread
    cases hfound : found t p with
    | error f =>
      rw [hfound] at hread
      cases hread
    | ok value' =>
      rw [hfound] at hread
      obtain rfl := Except.ok.inj hread
      exact ⟨p, hp, rfl, hfound⟩

/-- Reading a manifest keeps a cache sound. -/
theorem keeps_reading {p : Path} (hp : EndsInName p) : Keeps (comparison t) (reading t p) := by
  intro c h
  cases hlookup : c.manifests.lookup p.parts with
  | some known => rwa [reading_of_known hlookup]
  | none =>
    rw [reading_of_unknown hlookup]
    cases hfound : found t p with
    | error f => exact h
    | ok value => exact h.withManifest ⟨p, hp, rfl, hfound⟩

/-- Reading a manifest gives the same, little or much known. -/
theorem agrees_reading {p : Path} (hp : EndsInName p) :
    Agrees (comparison t) (reading t p) (reading t p) where
  keeps := keeps_reading hp
  keeps' := keeps_reading hp
  agrees := by
    intro c c' h h' hwithin
    cases hlookup : c.manifests.lookup p.parts with
    | some known =>
      obtain ⟨known', hlookup'⟩ := Option.isSome_iff_exists.mp (hwithin p.parts (by simp [hlookup]))
      obtain rfl := (h.manifests _ _ hlookup).unique (h'.manifests _ _ hlookup')
      rw [reading_of_known hlookup, reading_of_known hlookup']
      exact Or.inl ⟨rfl, hwithin⟩
    | none =>
      rw [reading_of_unknown hlookup]
      cases hlookup' : c'.manifests.lookup p.parts with
      | some known' =>
        obtain ⟨q, hq, hparts, hfound⟩ := h'.manifests _ _ hlookup'
        rcases found_of_parts_eq hparts.symm hp hq hfound with hfound | ⟨hlong, hfound⟩
        · rw [hfound, reading_of_known hlookup']
          refine Or.inl ⟨rfl, fun parts hparts => ?_⟩
          rw [lookup_cons] at hparts
          split at hparts
          · rename_i heq
            rw [heq, hlookup']
            rfl
          · exact hwithin parts hparts
        · rw [hfound]
          exact Or.inr ⟨_, ⟨p, hlong, rfl⟩, rfl⟩
      | none =>
        rw [reading_of_unknown hlookup']
        cases found t p with
        | error f => exact Or.inl ⟨rfl, hwithin⟩
        | ok value =>
          refine Or.inl ⟨rfl, fun parts hparts => ?_⟩
          rw [lookup_cons] at hparts ⊢
          split
          · rfl
          · rename_i hne
            rw [if_neg hne] at hparts
            exact hwithin parts hparts

/-- The manifest of a directory is asked for before those above it. -/
theorem nearestAmong_cons {dir : Path} (hdir : ¬ (dir.fileName? == some "node_modules") = true)
    (above : List Path) :
    (nearestAmong t (dir :: above) : Run Fault Cache _) =
      settle (reading t (dir.join "package.json"))
        (fun value? =>
          match value? with
          | some value => pure (some (dir.join "package.json", value))
          | none => nearestAmong t above)
        throw := by
  funext c
  rw [nearestAmong, if_neg hdir]
  unfold settle reading
  cases hread : read t c (dir.join "package.json") with
  | error f => simp [hread]; rfl
  | ok pair =>
    obtain ⟨_ | value, c⟩ := pair
    · simp [hread]
    · simp [hread]
      rfl

/-- Nothing is looked for above the directory of packages. -/
theorem nearestAmong_cons_of_packages {dir : Path}
    (hdir : (dir.fileName? == some "node_modules") = true) (above : List Path) (c : Cache) :
    nearestAmong t (dir :: above) c = (.ok none, c) := by
  rw [nearestAmong, if_pos hdir]

/-- Looking for the nearest manifest gives the same, little or much known. -/
theorem agrees_nearestAmong (dirs : List Path) :
    Agrees (comparison t) (nearestAmong t dirs) (nearestAmong t dirs) := by
  induction dirs with
  | nil => exact .of_const fun c => show nearestAmong t [] c = (.ok none, c) from rfl
  | cons dir above ih =>
    by_cases hdir : (dir.fileName? == some "node_modules") = true
    · exact .of_const fun c => nearestAmong_cons_of_packages hdir above c
    · rw [nearestAmong_cons hdir]
      refine (agrees_reading (Path.endsInName_join isName_manifest)).settle (fun value? => ?_)
        (fun f => .throw f) fun _ _ => rfl
      cases value? with
      | some value => exact .pure _
      | none => exact ih

/-- A manifest that is found upward stands in the files, below one of the directories. -/
theorem Sound.stands_of_nearestAmong {c : Cache} (h : Sound t c) {dirs : List Path} {p : Path}
    {value : Value} (hnearest : (nearestAmong t dirs c).1 = .ok (some (p, value))) :
    (∃ dir ∈ dirs, p = dir.join "package.json") ∧ Stands t p.parts (some value) := by
  induction dirs generalizing c with
  | nil => simp [nearestAmong] at hnearest
  | cons dir above ih =>
    by_cases hdir : (dir.fileName? == some "node_modules") = true
    · rw [nearestAmong_cons_of_packages hdir] at hnearest
      simp at hnearest
    · have hp : EndsInName (dir.join "package.json") := Path.endsInName_join isName_manifest
      have hkeeps := keeps_reading (t := t) hp c h
      have hstands {value? : Option Value}
          (hread : (reading t (dir.join "package.json") c).1 = .ok value?) :=
        h.stands_of_reading hp hread
      rw [nearestAmong_cons hdir above, settle] at hnearest
      rcases hread : reading t (dir.join "package.json") c with ⟨f | value?, after⟩
      · rw [hread] at hnearest
        cases hnearest
      · rw [hread] at hkeeps hstands hnearest
        cases value? with
        | none =>
          obtain ⟨⟨dir', hdir', hp'⟩, hvalue⟩ := ih hkeeps hnearest
          exact ⟨⟨dir', List.mem_cons_of_mem _ hdir', hp'⟩, hvalue⟩
        | some value' =>
          obtain ⟨rfl, rfl⟩ : dir.join "package.json" = p ∧ value' = value :=
            Prod.mk.inj (Option.some.inj (Except.ok.inj hnearest))
          exact ⟨⟨dir, List.mem_cons_self, rfl⟩, hstands rfl⟩

/-- The directory whose nearest manifest decides the type of a file. -/
def packageDir (file : Path) : Path := file.parent?.getD file

/-- The format of a package by its manifest; outside of packages, files are scripts. -/
def formatOf : Option (Path × Value) → ModuleFormat
  | some (_, value) => declaredFormat value
  | none => .script

/-- Tell the type that a manifest declares, unless the type around it is known already. -/
def typeOf (dir : Path) : Option (Path × Value) → Run Fault Cache ModuleFormat
  | none => pure .script
  | some (manifest, value) => fun c =>
    match c.types.lookup (manifest.parent?.getD dir).parts with
    | some known => (.ok known, c)
    | none =>
      (.ok (declaredFormat value),
        { c with types := ((manifest.parent?.getD dir).parts, declaredFormat value) :: c.types })

/-- The type of a file is told by the nearest manifest. -/
theorem packageType_eq (file : Path) :
    (fun c => packageType t c file : Run Fault Cache ModuleFormat) =
      settle (fun c => nearest t c (packageDir file)) (typeOf (packageDir file)) throw := by
  funext c
  unfold settle packageType packageDir
  dsimp only
  rcases nearest t c (file.parent?.getD file) with ⟨f | _ | ⟨p, value⟩, after⟩ <;> rfl

/-- The type around a manifest is known by the directory that it is joined to. -/
theorem typeOf_join (dir below : Path) (value : Value) (c : Cache) :
    typeOf dir (some (below.join "package.json", value)) c =
      match c.types.lookup below.parts with
      | some known => (.ok known, c)
      | none =>
        (.ok (declaredFormat value),
          { c with types := (below.parts, declaredFormat value) :: c.types }) := by
  obtain ⟨boundary, hboundary, hparts⟩ := Path.exists_parent?_join below isName_manifest
  rw [typeOf, hboundary, ← hparts]
  rfl

/-- A sound cache tells the type that a manifest declares, and learns no manifests by that. -/
theorem Sound.typeOf_eq {c : Cache} (h : Sound t c) (dir : Path) {below : Path} {value : Value}
    (hstands : Stands t (below.join "package.json").parts (some value)) :
    (typeOf dir (some (below.join "package.json", value)) c).1 = .ok (declaredFormat value) ∧
      (typeOf dir (some (below.join "package.json", value)) c).2.manifests = c.manifests ∧
      Sound t (typeOf dir (some (below.join "package.json", value)) c).2 := by
  rw [Path.parts_join isName_manifest] at hstands
  rw [typeOf_join]
  cases hlookup : c.types.lookup below.parts with
  | some known =>
    obtain ⟨value', hvalue', hknown⟩ := h.types _ _ hlookup
    obtain rfl := Option.some.inj (hstands.unique hvalue')
    exact ⟨by rw [hknown], rfl, h⟩
  | none =>
    refine ⟨rfl, rfl, h.manifests, fun parts format hformat => ?_⟩
    rw [lookup_cons] at hformat
    split at hformat
    · rename_i heq
      obtain rfl := Option.some.inj hformat
      exact ⟨value, heq ▸ hstands, rfl⟩
    · exact h.types parts format hformat

/-- A sound cache tells the type of a file by its nearest manifest, and learns no other manifests
by that. -/
theorem Sound.packageType_eq {c : Cache} (h : Sound t c) (file : Path) :
    (packageType t c file).1 = (nearest t c (packageDir file)).1.map formatOf ∧
      (packageType t c file).2.manifests = (nearest t c (packageDir file)).2.manifests ∧
      Sound t (packageType t c file).2 := by
  have hkeeps : Sound t (nearest t c (packageDir file)).2 := (agrees_nearestAmong _).keeps c h
  have hstands {p : Path} {value : Value} :
      (nearest t c (packageDir file)).1 = .ok (some (p, value)) → _ := h.stands_of_nearestAmong
  rw [congrFun (Cache.packageType_eq (t := t) file) c, settle]
  rcases hnearest : nearest t c (packageDir file) with ⟨f | _ | ⟨p, value⟩, after⟩ <;>
    rw [hnearest] at hkeeps hstands
  · exact ⟨rfl, rfl, hkeeps⟩
  · exact ⟨rfl, rfl, hkeeps⟩
  · obtain ⟨⟨below, -, rfl⟩, hvalue⟩ := hstands rfl
    exact Sound.typeOf_eq hkeeps _ hvalue

/-- The manifest at the root decides the type of the root. -/
theorem Sound.packageType_root {c : Cache} (h : Sound t c) {p : Path} (hp : p.parts = [.root]) :
    (packageType t c p).1 = (reading t (p.join "package.json") c).1.map fun value? =>
      (value?.map declaredFormat).getD .script := by
  have hdir : ¬ (p.fileName? == some "node_modules") = true := by
    simp [Path.fileName?, hp]
  rw [(h.packageType_eq p).1, nearest, packageDir, Path.parent?_eq_none hp, Option.getD_none,
    Path.ancestors_eq_singleton hp, nearestAmong_cons hdir, settle]
  rcases reading t (p.join "package.json") c with ⟨f | _ | value, after⟩ <;> rfl

/-- The type of a file is the same, little or much known. -/
theorem agrees_packageType (file : Path) :
    Agrees (comparison t) (fun c => packageType t c file) fun c => packageType t c file where
  keeps c h := (h.packageType_eq file).2.2
  keeps' c h := (h.packageType_eq file).2.2
  agrees c c' h h' hwithin := by
    obtain ⟨htype, hmanifests, -⟩ := h.packageType_eq file
    obtain ⟨htype', hmanifests', -⟩ := h'.packageType_eq file
    have hnearest :=
      (agrees_nearestAmong (t := t) (packageDir file).ancestors).agrees c c' h h' hwithin
    change (nearest t c (packageDir file)).1 = (nearest t c' (packageDir file)).1 ∧
      Within (nearest t c (packageDir file)).2 (nearest t c' (packageDir file)).2 ∨ _ at hnearest
    rw [htype, htype']
    rcases hnearest with ⟨hresult, hbelow⟩ | ⟨f, hf, hresult⟩
    · refine Or.inl ⟨by rw [hresult], ?_⟩
      intro parts hparts
      rw [hmanifests] at hparts
      rw [hmanifests']
      exact hbelow parts hparts
    · refine Or.inr ⟨f, hf, ?_⟩
      change (nearest t c (packageDir file)).1 = .error f at hresult
      rw [hresult]
      rfl

end ScriptModules.Package.Cache

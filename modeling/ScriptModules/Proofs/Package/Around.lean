import ScriptModules.Proofs.Package.Cache

/-!
# The package around a file

There are directories all the way above a file. So where every manifest that is there can be read,
the type of the package around a file can be told, unless one of the places where a manifest would
be has too long a path to be looked at.
-/

namespace ScriptModules

namespace Files.Tree

open ScriptModules.Path (EndsInName IsName)

variable {t : Tree} {p q : Path}

/-- A name can be followed in every directory above a path that was followed, unless that makes too
long a path. -/
theorem exists_wayOf_join {way : List String} (h : t.wayOf p = .ok way) (hp : EndsInName p)
    {parent : Path} (hparent : p.parent? = some parent) (hq : q ∈ parent.ancestors) {name : String}
    (hname : IsName name) (hsize : name.utf8ByteSize ≤ longestName)
    (hascii : '\x00' ∉ name.toList) : (∃ way', t.wayOf (q.join name) = .ok way') ∨
      TooLong (q.join name) ∧ t.wayOf (q.join name) = .error .nameTooLong := by
  obtain ⟨hzero, habsolute, hfollow⟩ := wayOf_eq_ok h
  obtain ⟨last, -, hlast⟩ := Path.exists_parts_of_parent? hparent
  obtain ⟨between, hbetween⟩ := Path.parts_prefix_of_mem_ancestors hq
  have hparts : p.parts = q.parts ++ (between ++ [last]) := by
    rw [hlast, ← hbetween, List.append_assoc]
  have hqabsolute : q.isAbsolute = true :=
    Path.isAbsolute_of_mem_ancestors (Path.isAbsolute_of_parent? habsolute hparent) hq
  -- The directory lies on the way that was followed.
  rw [follow_pieces habsolute hp, Path.steps_of_parts_eq hqabsolute hparts] at hfollow
  obtain ⟨above, habove, hrest⟩ := exists_of_follow_append hfollow
  have hat : t.at? above = some .directory := by
    obtain ⟨piece, more, hmore⟩ :=
      List.exists_cons_of_ne_nil (l := (between ++ [last]).map Path.Part.piece) (by simp)
    rw [hmore] at hrest
    exact at?_of_follow_cons hrest
  have hnozero : ¬ (q.join name).text.toList.contains '\x00' = true := by
    rw [List.contains_iff_mem]
    exact Path.not_mem_text_join hparts hzero hname hascii (by decide) (by decide)
  have hjoinAbsolute := Path.isAbsolute_join hqabsolute hname
  rw [wayOf, if_neg hnozero, if_pos hjoinAbsolute]
  by_cases hlong : (q.join name).text.utf8ByteSize > longestPath
  · exact Or.inr ⟨hlong, if_pos hlong⟩
  · refine Or.inl ⟨above ++ [name], ?_⟩
    rw [if_neg hlong, follow_pieces hjoinAbsolute (Path.endsInName_join hname),
      Path.steps_of_parts_eq hqabsolute (Path.parts_join hname), follow_append, habove]
    exact (follow_cons_name hat hname.partOf? []).trans (if_neg (by omega))

end Files.Tree

namespace Package.Cache

open Files.Tree (TooLong)
open ScriptModules.Path (EndsInName)
open Project (Fault)

variable {t : Files.Tree}

/-- Every manifest that is there can be read. -/
def ManifestsRead (t : Files.Tree) : Prop :=
  ∀ p : Path, p.fileName? = some "package.json" → ∀ e, t.entry p = .ok e →
    ∃ text value, t.readText p = .ok text ∧ Json.parse text = .ok value

/-- A manifest is found or found to be absent, unless its path is too long. -/
def Looked (t : Files.Tree) (dir : Path) : Prop :=
  (∃ value?, found t (dir.join "package.json") = .ok value?) ∨
    TooLong (dir.join "package.json") ∧
      found t (dir.join "package.json") = .error (.read (dir.join "package.json") .nameTooLong)

/-- Where nothing has the name of manifests, all of them can be read. -/
theorem manifestsRead_of_at?
    (h : ∀ way e, t.at? way = some e → way.getLast? ≠ some "package.json") : ManifestsRead t := by
  intro p hname e he
  obtain ⟨way, hway, hat⟩ := Files.Tree.entry_eq_ok he
  exact absurd (Files.Tree.getLast?_of_wayOf hway hname) (h way e hat)

/-- The manifest of a directory has its own name. -/
theorem fileName?_manifest (dir : Path) :
    (dir.join "package.json").fileName? = some "package.json" := by
  rw [Path.fileName?, Path.parts_join isName_manifest, List.getLast?_concat]

/-- Above a file, every manifest can be looked for. -/
theorem ManifestsRead.looked (ht : ManifestsRead t) {p : Path} (h : t.isFile p = true)
    (hp : EndsInName p) {parent : Path} (hparent : p.parent? = some parent) {dir : Path}
    (hdir : dir ∈ parent.ancestors) : Looked t dir := by
  obtain ⟨way, hway⟩ := Files.Tree.exists_way_of_isFile h
  rcases Files.Tree.exists_wayOf_join hway hp hparent hdir isName_manifest (by decide) (by decide)
    with ⟨way', hway'⟩ | ⟨hlong, hway'⟩
  · left
    have hentry := Files.Tree.entry_of_wayOf hway'
    cases hat : t.at? way' with
    | none =>
      rw [hat] at hentry
      have hread : t.readText (dir.join "package.json") = .error .notFound := by
        rw [Files.Tree.readText, Files.Tree.read, hentry]
        rfl
      exact ⟨none, by rw [found_eq, hread]⟩
    | some e =>
      rw [hat] at hentry
      obtain ⟨text, value, hread, hparse⟩ := ht _ (fileName?_manifest dir) e hentry
      exact ⟨some value, by rw [found_eq, hread]; simp [hparse]⟩
  · have hread : t.readText (dir.join "package.json") = .error .nameTooLong := by
      simp [Files.Tree.readText, Files.Tree.read, Files.Tree.entry, hway', bind, Except.bind]
    exact Or.inr ⟨hlong, by rw [found_eq, hread]⟩

/-- An answer, or a failure to look for a manifest under too long a path. -/
def Told (dirs : List Path) {α : Type} (result : Except Fault α) : Prop :=
  (∃ a, result = .ok a) ∨ ∃ dir ∈ dirs, TooLong (dir.join "package.json") ∧
    result = .error (.read (dir.join "package.json") .nameTooLong)

/-- Looking upward comes to an end unless a manifest has too long a path. -/
theorem told_nearestAmong {dirs : List Path} (h : ∀ dir ∈ dirs, Looked t dir) (c : Cache) :
    Told dirs (nearestAmong t dirs c).1 := by
  induction dirs generalizing c with
  | nil => exact Or.inl ⟨none, rfl⟩
  | cons dir above ih =>
    by_cases hdir : (dir.fileName? == some "node_modules") = true
    · rw [nearestAmong_cons_of_packages hdir]
      exact Or.inl ⟨none, rfl⟩
    · have hread : (∃ value?, (reading t (dir.join "package.json") c).1 = .ok value?) ∨
          TooLong (dir.join "package.json") ∧ (reading t (dir.join "package.json") c).1 =
            .error (.read (dir.join "package.json") .nameTooLong) := by
        cases hlookup : c.manifests.lookup (dir.join "package.json").parts with
        | some known => exact Or.inl ⟨known, by rw [reading_of_known hlookup]⟩
        | none =>
          rw [reading_of_unknown hlookup]
          rcases h dir List.mem_cons_self with ⟨value?, hfound⟩ | ⟨hlong, hfound⟩
          · exact Or.inl ⟨value?, by rw [hfound]⟩
          · exact Or.inr ⟨hlong, by rw [hfound]⟩
      rw [nearestAmong_cons hdir, settle]
      rcases hrun : reading t (dir.join "package.json") c with ⟨f | value?, after⟩ <;>
        rw [hrun] at hread
      · rcases hread with ⟨_, hread⟩ | ⟨hlong, hread⟩
        · cases hread
        · obtain rfl := Except.error.inj hread
          exact Or.inr ⟨dir, List.mem_cons_self, hlong, rfl⟩
      · cases value? with
        | some value => exact Or.inl ⟨_, rfl⟩
        | none =>
          rcases ih (fun d hd => h d (List.mem_cons_of_mem _ hd)) after with hok | ⟨d, hd, hlong⟩
          · exact Or.inl hok
          · exact Or.inr ⟨d, List.mem_cons_of_mem _ hd, hlong⟩

/-- What a manifest declares is a format. -/
theorem exists_typeOf_eq_ok (dir : Path) (manifest? : Option (Path × Json.Value)) (c : Cache) :
    ∃ format, (typeOf dir manifest? c).1 = .ok format := by
  cases manifest? with
  | none => exact ⟨.script, rfl⟩
  | some pair =>
    dsimp only [typeOf]
    cases c.types.lookup (pair.1.parent?.getD dir).parts with
    | some known => exact ⟨known, rfl⟩
    | none => exact ⟨declaredFormat pair.2, rfl⟩

/-- The type of the package around a file can be told unless a manifest has too long a path. -/
theorem ManifestsRead.told_packageType (ht : ManifestsRead t) {p : Path} (h : t.isFile p = true)
    (hp : EndsInName p) (c : Cache) :
    Told (packageDir p).ancestors (packageType t c p).1 := by
  obtain ⟨parent, hparent⟩ := Path.exists_parent?_of_endsInName hp
  have hdir : packageDir p = parent := by rw [packageDir, hparent, Option.getD_some]
  have htold := told_nearestAmong (fun dir hdir => ht.looked h hp hparent hdir) c
  rw [congrFun (packageType_eq (t := t) p) c, settle, hdir]
  change Told _ (nearest t c parent).1 at htold
  rcases hnearest : nearest t c parent with ⟨f | manifest?, after⟩ <;> rw [hnearest] at htold
  · rcases htold with ⟨_, htold⟩ | ⟨dir, hdir, hlong, htold⟩
    · cases htold
    · obtain rfl := Except.error.inj htold
      exact Or.inr ⟨dir, hdir, hlong, rfl⟩
  · exact Or.inl (exists_typeOf_eq_ok parent manifest? after)

/-- Without anything known, a type is not told where the manifest next to the file has too long a
path. -/
theorem exists_packageType_eq_of_tooLong {p parent : Path} (hparent : p.parent? = some parent)
    (hpackages : parent.fileName? ≠ some "node_modules")
    (hlong : TooLong (parent.join "package.json")) :
    ∃ f, packageType t {} p = (.error f, {}) := by
  obtain ⟨cause, hfound⟩ := exists_found_eq_of_tooLong (t := t) hlong
  have hread : reading t (parent.join "package.json") {} =
      (.error (.read (parent.join "package.json") cause), {}) := by
    rw [reading_of_unknown rfl, hfound]
  have hancestors : ∃ above, parent.ancestors = parent :: above := by
    rw [Path.ancestors]
    cases parent.pieces.length with
    | zero => exact ⟨[], rfl⟩
    | succ fuel =>
      rw [Path.ancestorsWithin]
      split <;> exact ⟨_, rfl⟩
  obtain ⟨above, habove⟩ := hancestors
  refine ⟨.read (parent.join "package.json") cause, ?_⟩
  rw [congrFun (packageType_eq (t := t) p) {}, settle, packageDir, hparent, Option.getD_some,
    nearest, habove, nearestAmong_cons (by simpa using hpackages), settle, hread]
  rfl

end Package.Cache

end ScriptModules

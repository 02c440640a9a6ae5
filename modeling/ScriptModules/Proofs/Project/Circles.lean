import ScriptModules.Proofs.Files.Normalized
import ScriptModules.Proofs.Project.Chains

/-!
# Configurations that extend themselves

Files on a way are told apart as they are spelled. That tells files apart as long as no package is
looked up under a name that steps up, since all spellings are normal forms then.
-/

namespace ScriptModules.Project

open Json (Value)
open ScriptModules.Path (IsNormal)

variable {t : Files.Tree} {root path base : Path} {chain : List Path}

/-- A name that is a path, or is looked up in packages without stepping up. -/
def IsPlainName (extended : String) : Prop :=
  extended.toList.head? = some '.' ∨ (Path.mk extended).isAbsolute = true ∨
    ".." ∉ Path.pieces ⟨extended⟩

instance (extended : String) : Decidable (IsPlainName extended) :=
  inferInstanceAs (Decidable (_ ∨ _ ∨ _))

/-- Whether a file extends only plain names, if it can be read at all. -/
def IsPlain (t : Files.Tree) (path : Path) : Prop :=
  ∀ json, readFile t path = .ok json → ∀ extended ∈ extendedBy json, IsPlainName extended

/-- The path of a package as it is looked up in a directory. -/
def packagePath (above : Path) (extended : String) : Path :=
  (above.join "node_modules").join extended

/-- The paths that an extended name can be found at. -/
inductive Spelled (dir : Path) (extended : String) : Path → Prop
  | path {base : Path}
    (h : extended.toList.head? = some '.' ∨ (Path.mk extended).isAbsolute = true)
    (hbase : base = (dir.join extended).normalize ∨
      base = withJson (dir.join extended).normalize) : Spelled dir extended base
  | package {above base : Path} (hrelative : (Path.mk extended).isAbsolute = false)
    (hdot : extended.toList.head? ≠ some '.') (habove : above ∈ dir.ancestors)
    (hbase : base = packagePath above extended ∨
      base = (packagePath above extended).join "tsconfig.json" ∨
      base = withJson (packagePath above extended)) : Spelled dir extended base

/-- An extended name that is found is a file at one of the paths that it can be spelled as. -/
theorem spelled_of_findExtended? {dir : Path} {extended : String}
    (h : findExtended? t dir extended = some base) :
    t.isFile base = true ∧ Spelled dir extended base := by
  unfold findExtended? at h
  by_cases hpath : (extended.toList.head? == some '.' || (Path.mk extended).isAbsolute) = true
  · simp only [if_pos hpath] at h
    have hform : extended.toList.head? = some '.' ∨ (Path.mk extended).isAbsolute = true := by
      simpa using hpath
    split at h
    · rename_i hfile
      obtain rfl := Option.some.inj h
      exact ⟨hfile, .path hform (.inl rfl)⟩
    · split at h
      · rename_i hfile
        obtain rfl := Option.some.inj h
        exact ⟨(Bool.and_eq_true_iff.mp hfile).2, .path hform (.inr rfl)⟩
      · cases h
  · simp only [if_neg hpath] at h
    rw [Bool.not_eq_true, Bool.or_eq_false_iff, beq_eq_false_iff_ne] at hpath
    obtain ⟨above, habove, hbase⟩ := List.mem_map.mp (List.mem_of_find?_eq_some h)
    refine ⟨List.find?_some h, .package hpath.2 hpath.1 habove ?_⟩
    split at hbase
    · exact .inl hbase.symm
    · split at hbase
      · exact .inr (.inl hbase.symm)
      · exact .inr (.inr hbase.symm)

/-- The ending of JSON is no start at the root. -/
theorem isAbsolute_of_withJson {p : Path} (h : (withJson p).isAbsolute = true) :
    p.isAbsolute = true := by
  rw [Path.isAbsolute, withJson] at h
  rw [Path.isAbsolute]
  rw [String.toList_append, List.head?_append] at h
  cases hfirst : p.text.toList.head? with
  | none => simp [hfirst] at h
  | some c => simpa [hfirst] using h

/-- A path stays normal with the ending of JSON. -/
theorem isNormal_withJson {p : Path} (h : IsNormal p) : IsNormal (withJson p) :=
  h.append (by decide) (by decide)

/-- What a plain name stands for in a directory in normal form is in normal form, if it is
absolute. -/
theorem Spelled.isNormal {dir : Path} {extended : String} (h : Spelled dir extended base)
    (hdir : IsNormal dir ∨ dir = ⟨"."⟩) (hplain : IsPlainName extended)
    (hbase : base.isAbsolute = true) : IsNormal base := by
  cases h with
  | path _ hspelled =>
    rcases hspelled with rfl | rfl
    · exact Path.isNormal_normalize (Path.isAbsolute_of_normalize hbase)
    · exact isNormal_withJson (Path.isNormal_normalize
        (Path.isAbsolute_of_normalize (isAbsolute_of_withJson hbase)))
  | @package above _ hrelative hdot habove hspelled =>
    have hup : ".." ∉ Path.pieces ⟨extended⟩ := by
      rcases hplain with h | h | h
      · exact absurd h hdot
      · rw [hrelative] at h
        cases h
      · exact h
    rcases hdir with hdir | rfl
    · have hpackage : IsNormal (packagePath above extended) :=
        ((hdir.of_mem_ancestors habove).join (by decide) (by decide)).join hrelative hup
      rcases hspelled with rfl | rfl | rfl
      · exact hpackage
      · exact hpackage.join (by decide) (by decide)
      · exact isNormal_withJson hpackage
    · -- a relative directory has relative directories above it, and nothing is found there
      have habove' : above.isAbsolute = false := by
        have hall : ∀ above ∈ Path.ancestors ⟨"."⟩, above.isAbsolute = false := by decide
        exact hall above habove
      have hpackage : (packagePath above extended).isAbsolute = false :=
        Path.isAbsolute_join_eq_false (Path.isAbsolute_join_eq_false habove' (by decide)) hrelative
      exfalso
      rcases hspelled with rfl | rfl | rfl
      · exact Bool.false_ne_true (hpackage.symm.trans hbase)
      · exact Bool.false_ne_true
          ((Path.isAbsolute_join_eq_false hpackage (by decide)).symm.trans hbase)
      · exact Bool.false_ne_true (hpackage.symm.trans (isAbsolute_of_withJson hbase))

/-- The directory of a normal path is normal, or the current one. -/
theorem isNormal_dirOf {p : Path} (h : IsNormal p) : IsNormal (dirOf p) ∨ dirOf p = ⟨"."⟩ := by
  cases hparent : p.parent? with
  | none => exact .inr (by rw [dirOf, hparent]; rfl)
  | some dir =>
    exact .inl (by rw [dirOf, hparent]; exact h.of_parent? hparent)

/-- A plain name that is extended from a normal path leads to a normal one. -/
theorem Extends.isNormal (h : Extends t path base) (hpath : IsNormal path)
    (hplain : IsPlain t path) : IsNormal base := by
  obtain ⟨json, extended, hread, hmem, hfound⟩ := h
  obtain ⟨hfile, hspelled⟩ := spelled_of_findExtended? hfound
  exact hspelled.isNormal (isNormal_dirOf hpath) (hplain json hread extended hmem)
    (Files.Tree.isAbsolute_of_isFile hfile)

/-- Whether every file that is entered on the way from a root extends only plain names. -/
def PlainWays (t : Files.Tree) (root : Path) : Prop :=
  ∀ path rest, Way t root (path :: rest) → IsPlain t path

/-- On plain ways all files but the root have normal paths if the root has. -/
theorem Way.isNormal (h : Way t root chain) (hroot : IsNormal root) (hplain : PlainWays t root) :
    ∀ p ∈ chain, IsNormal p := by
  induction h with
  | root => exact List.forall_mem_singleton.mpr hroot
  | next hway hnext _ ih =>
    exact List.forall_mem_cons.mpr
      ⟨hnext.extends.isNormal (ih _ List.mem_cons_self) (hplain _ _ hway), ih⟩

/-- Normal paths are the same before they are normalized and after. -/
theorem same_normalize {p q : Path} (hp : IsNormal p) (hq : IsNormal q) :
    p.normalize.same q.normalize = p.same q := by
  rw [Path.same, Path.same, hp.parts_normalize, hq.parts_normalize]

/-- Only a path from the root is read. -/
theorem isAbsolute_of_readFile {json : Value} (h : readFile t path = .ok json) :
    path.isAbsolute = true := by
  obtain ⟨content, hcontent, -⟩ := of_readFile_eq_ok h
  obtain ⟨way, _, hway, -⟩ := Files.Tree.of_readText_eq_ok hcontent
  exact (Files.Tree.wayOf_eq_ok hway).2.1

/-- Only a way from a path in normal form leads on. -/
theorem isNormal_of_readFile {file : Path} {json : Value}
    (h : readFile t file.normalize = .ok json) : IsNormal file.normalize :=
  Path.isNormal_normalize (Path.isAbsolute_of_normalize (isAbsolute_of_readFile h))

/-- A way is the root alone, or its root is a normal path. -/
theorem Way.eq_or_isNormal {file : Path} (h : Way t file.normalize chain) :
    chain = [file.normalize] ∨ IsNormal file.normalize := by
  induction h with
  | root => exact .inl rfl
  | @next path base rest hway hnext _ ih =>
    rcases ih with hroot | hnormal
    · obtain ⟨rfl, rfl⟩ := List.cons.inj hroot
      obtain ⟨json, _, hread, -⟩ := hnext.extends
      exact .inr (isNormal_of_readFile hread)
    · exact .inr hnormal

/-- Following what a configuration extends ends, whatever the files are: no way goes on for ever,
and what loading gives is all that its recursion determines. Files are entered once on a way, and
the entry that leads back to one of them is the fault; nothing else is, so a file that two others
extend is none. This tells files apart as they are spelled, and by their normal forms as long as
only plain names are extended. -/
theorem extends_entered_once (t : Files.Tree) (file : Path) :
    WellFounded (Calls t) ∧ (∀ load, Solves t load ↔ load = loadLayer t) ∧
    (∀ chain, Way t file.normalize chain → chain.length ≤ wayLimit ∧
      chain.Pairwise fun later earlier => earlier.same later = false) ∧
    (∀ base, Config.load t file = .error (.circularExtends base) ↔
      ∃ path rest, Way t file.normalize (path :: rest) ∧ Next t rest path base ∧
        ∃ seen ∈ path :: rest, seen.same base = true) ∧
    (PlainWays t file.normalize →
      (∀ chain, Way t file.normalize chain →
        chain.Pairwise fun later earlier => earlier.normalize.same later.normalize = false) ∧
      ∀ base, Config.load t file = .error (.circularExtends base) ↔
        ∃ path rest, Way t file.normalize (path :: rest) ∧ Next t rest path base ∧
          ∃ seen ∈ path :: rest, seen.normalize.same base.normalize = true) := by
  have hcircle (base : Path) : Config.load t file = .error (.circularExtends base) ↔
      ∃ path rest, Way t file.normalize (path :: rest) ∧ Next t rest path base ∧
        OnWay (path :: rest) base :=
    load_eq_circularExtends_iff.trans loadLayer_eq_circularExtends_iff
  refine ⟨calls_wellFounded t, fun load => ⟨fun h => h.unique (solves_loadLayer t), ?_⟩,
    fun chain hway => ⟨?_, hway.pairwise⟩, hcircle, fun hplain => ⟨fun chain hway => ?_, ?_⟩⟩
  · rintro rfl
    exact solves_loadLayer t
  · cases chain with
    | nil => exact Nat.zero_le _
    | cons path rest =>
      have hlength := hway.length_add_room_le
      have hlimit := room_lt_wayLimit []
      rw [List.length_cons]
      omega
  · rcases hway.eq_or_isNormal with rfl | hroot
    · exact List.pairwise_singleton _ _
    · have hnormal := hway.isNormal hroot hplain
      refine hway.pairwise.imp_of_mem fun hlater hearlier hsame => ?_
      rw [same_normalize (hnormal _ hearlier) (hnormal _ hlater), hsame]
  · intro base
    rw [hcircle]
    refine exists_congr fun path => exists_congr fun rest => and_congr_right fun hway =>
      and_congr_right fun hnext => exists_congr fun seen => and_congr_right fun hseen => ?_
    have hroot : IsNormal file.normalize := by
      rcases hway.eq_or_isNormal with hchain | hroot
      · obtain ⟨rfl, rfl⟩ := List.cons.inj hchain
        obtain ⟨json, _, hread, -⟩ := hnext.extends
        exact isNormal_of_readFile hread
      · exact hroot
    have hnormal := hway.isNormal hroot hplain
    have hbase := hnext.extends.isNormal (hnormal path List.mem_cons_self) (hplain _ _ hway)
    rw [same_normalize (hnormal seen hseen) hbase]

/-- The names that a file extends, if it can be read. -/
def namesIn : Files.Entry → List String
  | .file bytes =>
    let json? := (Text.decode? bytes).bind fun content => (Jsonc.parse content).toOption
    (json?.map extendedBy).getD []
  | .directory => []

/-- What is read extends the names in one of the entries. -/
theorem exists_namesIn_of_readFile {json : Value} (h : readFile t path = .ok json) :
    ∃ entry ∈ t.entries, namesIn entry.2 = extendedBy json := by
  obtain ⟨content, hcontent, hparse⟩ := of_readFile_eq_ok h
  obtain ⟨way, bytes, -, hat, hdecode⟩ := Files.Tree.of_readText_eq_ok hcontent
  refine ⟨(way, .file bytes), ?_, by simp [namesIn, hdecode, hparse, Except.toOption]⟩
  unfold Files.Tree.at? at hat
  split at hat
  · cases hat
  · obtain ⟨_, _, hentries, -⟩ := List.lookup_eq_some_iff.mp hat
    rw [hentries]
    exact List.mem_append_right _ List.mem_cons_self

/-- Where files extend only plain names, all ways do. -/
theorem plainWays_of_entries
    (h : ∀ entry ∈ t.entries, ∀ extended ∈ namesIn entry.2, IsPlainName extended) :
    PlainWays t root := by
  intro path rest _ json hread extended hmem
  obtain ⟨entry, hentry, hnames⟩ := exists_namesIn_of_readFile hread
  exact h entry hentry extended (hnames ▸ hmem)

/-- The first name that a file extends is loaded next. -/
theorem next_of_head (extended : String)
    (hread : (((readFile t path).toOption.map extendedBy).bind List.head?) = some extended)
    (hfound : findExtended? t (dirOf path) extended = some base) : Next t chain path base := by
  cases hjson : readFile t path with
  | error fault =>
    rw [hjson] at hread
    cases hread
  | ok json =>
    rw [hjson] at hread
    obtain ⟨more, hnames⟩ := List.head?_eq_some_iff.mp hread
    exact ⟨json, [], extended, more, [], hjson, hnames, .nil, hfound⟩

/-- A file that extends one name. -/
def extending (extended : String) : Files.Entry :=
  .ofText ("\x7b\x22extends\x22:\x22" ++ extended ++ "\x22\x7d")

/-- Two configurations that extend each other. -/
def circle : Files.Tree :=
  ⟨[(["a.json"], extending "./b.json"), (["b.json"], extending "./a")]⟩

/-- The first of two configurations that extend each other is told as the circle. -/
theorem extends_entered_once_circle :
    PlainWays circle ⟨"/a.json"⟩ ∧
      Config.load circle ⟨"/a.json"⟩ = .error (.circularExtends ⟨"/a.json"⟩) := by
  have hplain : PlainWays circle (Path.normalize ⟨"/a.json"⟩) :=
    plainWays_of_entries (by decide +kernel)
  have hroot : Path.normalize ⟨"/a.json"⟩ = ⟨"/a.json"⟩ := by decide
  have hway : Way circle (Path.normalize ⟨"/a.json"⟩) [⟨"/b.json"⟩, Path.normalize ⟨"/a.json"⟩] :=
    .next .root (next_of_head "./b.json" (by decide +kernel) (by decide +kernel))
      (by rw [← any_same_iff]; decide)
  have hnext : Next circle [Path.normalize ⟨"/a.json"⟩] ⟨"/b.json"⟩ ⟨"/a.json"⟩ :=
    next_of_head "./a" (by decide +kernel) (by decide +kernel)
  refine ⟨hroot ▸ hplain, ?_⟩
  exact (((extends_entered_once circle ⟨"/a.json"⟩).2.2.2.2 hplain).2 ⟨"/a.json"⟩).mpr
    ⟨_, _, hway, hnext, _, List.mem_cons_of_mem _ List.mem_cons_self, by decide⟩

/-- Two configurations that extend each other through packages that are not there, up to a copy of
the second one that extends nothing. -/
def detour : Files.Tree :=
  ⟨[(["m"], .directory), (["m", "a.json"], extending "base/../../m/b.json"),
    (["m", "b.json"], extending "x/../../a.json"), (["node_modules"], .directory),
    (["node_modules", "base"], .directory), (["m", "node_modules"], .directory),
    (["m", "node_modules", "x"], .directory), (["m", "node_modules", "x", "m"], .directory),
    (["m", "node_modules", "x", "node_modules"], .directory),
    (["m", "node_modules", "x", "node_modules", "base"], .directory),
    (["m", "node_modules", "x", "m", "b.json"], .ofText "\x7b\x7d")]⟩

/-- A package that is looked up under a name that steps up is not told apart from the file that it
leads to, so a way comes back to a file on it. -/
theorem not_forall_entered_once : ¬ ∀ (t : Files.Tree) (file : Path) (chain : List Path),
    Way t file.normalize chain →
      chain.Pairwise fun later earlier => earlier.normalize.same later.normalize = false := by
  intro h
  have hway : Way detour (Path.normalize ⟨"/m/a.json"⟩)
      [⟨"/node_modules/base/../../m/node_modules/x/../../a.json"⟩,
        ⟨"/node_modules/base/../../m/b.json"⟩, Path.normalize ⟨"/m/a.json"⟩] :=
    .next
      (.next .root (next_of_head "base/../../m/b.json" (by decide +kernel) (by decide +kernel))
        (by rw [← any_same_iff]; decide))
      (next_of_head "x/../../a.json" (by decide +kernel) (by decide +kernel))
      (by rw [← any_same_iff]; decide)
  have hreturn := (List.pairwise_cons.mp (h _ _ _ hway)).1 (Path.normalize ⟨"/m/a.json"⟩)
    (List.mem_cons_of_mem _ List.mem_cons_self)
  exact absurd hreturn (by decide)

end ScriptModules.Project

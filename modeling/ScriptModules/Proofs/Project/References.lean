import ScriptModules.Project.Registry
import ScriptModules.Proofs.Files.Normalized
import ScriptModules.Proofs.Json.Keys
import ScriptModules.Proofs.Project.Extends

/-!
# Following references

Every reference that leads to a file leaves less room, so following references ends without the
limit. What is found is what references lead to from the root, in the order in which the projects
that are found refer to it.
-/

namespace ScriptModules.Project

open Files.Tree (TooLong)
open Json (Value)
open ScriptModules.Path (IsName)

variable {t : Files.Tree} {load : Path → Except Fault Config}

/-- A run that follows references, and what it gives. A reference that was seen or is no file is
passed over; a project that is loaded has its references at the end of the queue. -/
inductive Follows (t : Files.Tree) (load : Path → Except Fault Config) :
    List Path → List Path → List Config → Except Fault (List Config) → Prop
  | done {seen : List Path} {found : List Config} : Follows t load seen [] found (.ok found)
  | again {seen rest : List Path} {reference : Path} {found : List Config}
    {result : Except Fault (List Config)} (hseen : seen.any (·.same reference) = true)
    (hrest : Follows t load seen rest found result) :
    Follows t load seen (reference :: rest) found result
  | missing {seen rest : List Path} {reference : Path} {found : List Config}
    {result : Except Fault (List Config)} (hnew : seen.any (·.same reference) = false)
    (hfile : t.isFile reference = false)
    (hrest : Follows t load (reference :: seen) rest found result) :
    Follows t load seen (reference :: rest) found result
  | unloaded {seen rest : List Path} {reference : Path} {found : List Config} {fault : Fault}
    (hnew : seen.any (·.same reference) = false) (hfile : t.isFile reference = true)
    (hload : load reference = .error fault) :
    Follows t load seen (reference :: rest) found (.error fault)
  | project {seen rest : List Path} {reference : Path} {found : List Config} {config : Config}
    {result : Except Fault (List Config)} (hnew : seen.any (·.same reference) = false)
    (hfile : t.isFile reference = true) (hload : load reference = .ok config)
    (hrest : Follows t load (reference :: seen) (rest ++ config.references) (found ++ [config])
      result) :
    Follows t load seen (reference :: rest) found result

/-- With enough room below the limit, the limit does not matter. -/
theorem follows_follow {limit : Nat} {seen queue : List Path} {found : List Config}
    (h : room seen < limit) :
    Follows t load seen queue found (Registry.follow t load limit seen queue found) := by
  have hroom {seen : List Path} {reference : Path} (hnew : ¬ seen.any (·.same reference) = true)
      (hfile : ¬ (!t.isFile reference) = true) : room (reference :: seen) < room seen :=
    room_cons_lt (Files.Tree.not_tooLong_of_isFile (by simpa using hfile))
      (Bool.eq_false_iff.mpr hnew)
  fun_induction Registry.follow t load limit seen queue found with
  | case1 => exact .done
  | case2 limit seen found reference rest hseen ih => exact .again hseen (ih h)
  | case3 limit seen found reference rest hnew hfile ih =>
    exact .missing (Bool.eq_false_iff.mpr hnew) (by simpa using hfile)
      (ih (Nat.lt_of_le_of_lt (room_cons_le reference seen) h))
  | case4 => exact absurd h (Nat.not_lt_zero _)
  | case5 seen found reference rest hnew hfile limit fault hload =>
    exact .unloaded (Bool.eq_false_iff.mpr hnew) (by simpa using hfile) hload
  | case6 seen found reference rest hnew hfile limit config hload ih =>
    have hless := hroom hnew hfile
    exact .project (Bool.eq_false_iff.mpr hnew) (by simpa using hfile) hload (ih (by omega))

/-- A path that is its own normal form, if it starts at the root. -/
def Canonical (p : Path) : Prop := p.isAbsolute = true → p.normalize = p

/-- Files in canonical spelling are told apart by their parts. -/
theorem Canonical.eq {p q : Path} (hp : Canonical p) (hq : Canonical q)
    (habsolute : p.isAbsolute = true) (hparts : p.parts = q.parts) : p = q := by
  have habsolute' : q.isAbsolute = true := by
    rw [Path.isAbsolute_iff] at habsolute ⊢
    rwa [← hparts]
  rw [← hp habsolute, ← hq habsolute', Path.normalize_congr hparts]

/-- The file that references to directories lead to has a name of its own. -/
theorem isName_fileName : IsName Registry.fileName := ⟨by decide, by decide, by decide⟩

/-- The path of a reference is in its normal form. -/
theorem canonical_referencePath (dir : Path) (reference : String) :
    Canonical (referencePath dir reference) := by
  intro h
  unfold referencePath at h ⊢
  dsimp only at h ⊢
  split at h
  · rename_i hjson
    rw [if_pos hjson]
    exact Path.normalize_normalize (Path.isAbsolute_of_normalize h)
  · rename_i hjson
    rw [if_neg hjson]
    refine Path.normalize_join_of_isName ?_ isName_fileName
    by_contra hrelative
    rw [Bool.not_eq_true] at hrelative
    exact Bool.false_ne_true
      ((Path.isAbsolute_join_eq_false hrelative (by decide)).symm.trans h)

/-- What a configuration that is loaded says about its path and its references. -/
theorem of_load_eq_ok {path : Path} {config : Config} (h : Config.load t path = .ok config) :
    config.path = path.normalize ∧ ∀ reference ∈ config.references, Canonical reference := by
  obtain ⟨⟨layer, json⟩, -, hassemble⟩ := exists_of_bind_eq_ok h
  obtain ⟨scope, -, hconfig⟩ := exists_of_bind_eq_ok hassemble
  obtain rfl := Except.ok.inj hconfig
  refine ⟨rfl, fun reference hmem => ?_⟩
  obtain ⟨entry, -, hentry⟩ := List.mem_filterMap.mp hmem
  obtain ⟨text, -, rfl⟩ := Option.map_eq_some_iff.mp hentry
  exact canonical_referencePath _ _

/-- The configuration of a path. The root is not loaded again. -/
def configAt (t : Files.Tree) (root : Config) (p : Path) : Except Fault Config :=
  if p.same root.path then .ok root else Config.load t p

/-- What references over files lead to. -/
inductive Reached (t : Files.Tree) (root : Config) : Config → Prop
  | root : Reached t root root
  | next {config config' : Config} {reference : Path} (h : Reached t root config)
    (hmem : reference ∈ config.references) (hfile : t.isFile reference = true)
    (hconfig : configAt t root reference = .ok config') : Reached t root config'

/-- The references of a configuration that lead to files, told apart by their parts. -/
def fileReferences (t : Files.Tree) (config : Config) : List (List Path.Part) :=
  (config.references.filter t.isFile).map Path.parts

variable {root : Config}

/-- A search for what the root leads to. `order` tells of the root and the references to files that
were looked at, as often as they were; what is left in the queue completes it to the references of
what was found. -/
structure Search (t : Files.Tree) (root : Config) (order : List (List Path.Part))
    (seen queue : List Path) (found : List Config) : Prop where
  head : found.head? = some root
  keys : found.map (·.path.parts) = order.eraseDups
  completes : order ++ (queue.filter t.isFile).map Path.parts =
    root.path.parts :: found.flatMap (fileReferences t)
  sources : ∀ reference ∈ queue, ∃ config ∈ found, reference ∈ config.references
  looked : ∀ p, Canonical p → t.isFile p = true →
    (seen.any (·.same p) = true ↔ p.parts ∈ order)
  reached : ∀ config ∈ found, Reached t root config ∧
    (∀ reference ∈ config.references, Canonical reference) ∧
    ∀ p, Canonical p → t.isFile p = true → p.parts = config.path.parts →
      configAt t root p = .ok config

/-- The search starts at the root, with its references in the queue. -/
theorem search_root (hroot : ∀ reference ∈ root.references, Canonical reference) :
    Search t root [root.path.parts] [root.path] root.references [root] where
  head := rfl
  keys := rfl
  completes := by simp [fileReferences]
  sources reference hmem := ⟨root, List.mem_singleton_self root, hmem⟩
  looked p _ _ := by simp [Path.same, eq_comm (a := p.parts)]
  reached config hmem := by
    obtain rfl := List.mem_singleton.mp hmem
    exact ⟨.root, hroot, fun p _ _ hparts => if_pos (beq_iff_eq.mpr hparts)⟩

namespace Search

variable {order : List (List Path.Part)} {seen rest : List Path} {found : List Config}
  {reference : Path}

/-- The references in the queue are in their normal form. -/
theorem canonical (h : Search t root order seen (reference :: rest) found) :
    Canonical reference := by
  obtain ⟨config, hfound, hmem⟩ := h.sources reference List.mem_cons_self
  exact (h.reached config hfound).2.1 reference hmem

/-- The root was looked at. -/
theorem root_mem (h : Search t root order seen rest found) : root.path.parts ∈ order := by
  rw [← List.mem_eraseDups, ← h.keys]
  exact List.mem_map.mpr ⟨root, List.mem_of_mem_head? h.head, rfl⟩

/-- A reference that is new is not the root. -/
theorem configAt_eq (h : Search t root order seen (reference :: rest) found)
    (hnew : seen.any (·.same reference) = false) (hfile : t.isFile reference = true) :
    configAt t root reference = Config.load t reference := by
  refine if_neg fun hsame => ?_
  have hmem : reference.parts ∈ order := by
    rw [beq_iff_eq.mp hsame]
    exact h.root_mem
  rw [(h.looked reference h.canonical hfile).mpr hmem] at hnew
  cases hnew

/-- A reference that was seen before adds nothing. -/
theorem again (h : Search t root order seen (reference :: rest) found)
    (hseen : seen.any (·.same reference) = true) :
    ∃ order', Search t root order' seen rest found := by
  have hsources := fun other hother => h.sources other (List.mem_cons_of_mem reference hother)
  by_cases hfile : t.isFile reference = true
  · have hmem : reference.parts ∈ order := (h.looked reference h.canonical hfile).mp hseen
    refine ⟨order ++ [reference.parts], h.head, ?_, ?_, hsources, ?_, h.reached⟩
    · rw [eraseDups_concat, if_pos hmem, h.keys]
    · rw [← h.completes, List.filter_cons_of_pos hfile]
      simp
    · intro p hp hpfile
      rw [h.looked p hp hpfile, List.mem_append, List.mem_singleton]
      exact ⟨Or.inl, fun hor => hor.elim id fun heq => heq ▸ hmem⟩
  · refine ⟨order, h.head, h.keys, ?_, hsources, h.looked, h.reached⟩
    rw [← h.completes, List.filter_cons_of_neg hfile]

/-- A reference that is no file adds nothing but that it was seen. -/
theorem missing (h : Search t root order seen (reference :: rest) found)
    (hfile : t.isFile reference = false) :
    Search t root order (reference :: seen) rest found where
  head := h.head
  keys := h.keys
  completes := by rw [← h.completes, List.filter_cons_of_neg (by simp [hfile])]
  sources other hother := h.sources other (List.mem_cons_of_mem reference hother)
  looked p hp hpfile := by
    rw [List.any_cons, Bool.or_eq_true, h.looked p hp hpfile, or_iff_right_iff_imp]
    -- nothing but the reference itself has its parts, and it is no file
    intro hsame
    obtain rfl : reference = p := (hp.eq h.canonical (Files.Tree.isAbsolute_of_isFile hpfile)
      (beq_iff_eq.mp hsame).symm).symm
    rw [hfile] at hpfile
    cases hpfile
  reached := h.reached

/-- A reference to a new file adds its project, and the references of that to the queue. -/
theorem project (h : Search t root order seen (reference :: rest) found)
    (hnew : seen.any (·.same reference) = false) (hfile : t.isFile reference = true)
    {config : Config} (hload : Config.load t reference = .ok config) :
    Search t root (order ++ [reference.parts]) (reference :: seen) (rest ++ config.references)
      (found ++ [config]) := by
  obtain ⟨source, hsource, hmem⟩ := h.sources reference List.mem_cons_self
  obtain ⟨hpath, hreferences⟩ := of_load_eq_ok hload
  have hparts : config.path.parts = reference.parts := by
    rw [hpath, h.canonical (Files.Tree.isAbsolute_of_isFile hfile)]
  have hat : configAt t root reference = .ok config := (h.configAt_eq hnew hfile).trans hload
  have hfresh : reference.parts ∉ order := by
    rw [← h.looked reference h.canonical hfile, hnew]
    exact Bool.false_ne_true
  refine ⟨?_, ?_, ?_, ?_, ?_, ?_⟩
  · rw [List.head?_append, h.head]
    rfl
  · rw [List.map_append, h.keys, eraseDups_concat, if_neg hfresh, List.map_singleton, hparts]
  · rw [List.flatMap_append, ← List.cons_append, ← h.completes, List.filter_cons_of_pos hfile,
      List.filter_append]
    simp [fileReferences]
  · intro other hother
    rcases List.mem_append.mp hother with hother | hother
    · obtain ⟨source, hsource, hmem⟩ := h.sources other (List.mem_cons_of_mem reference hother)
      exact ⟨source, List.mem_append_left _ hsource, hmem⟩
    · exact ⟨config, List.mem_append_right _ (List.mem_singleton_self config), hother⟩
  · intro p hp hpfile
    rw [List.any_cons, Bool.or_eq_true, h.looked p hp hpfile, List.mem_append, List.mem_singleton,
      or_comm, Path.same, beq_iff_eq, eq_comm (a := reference.parts)]
  · intro other hother
    rcases List.mem_append.mp hother with hother | hother
    · exact h.reached other hother
    · obtain rfl := List.mem_singleton.mp hother
      refine ⟨(h.reached source hsource).1.next hmem hfile hat, hreferences, ?_⟩
      intro p hp hpfile hpparts
      rwa [hp.eq h.canonical (Files.Tree.isAbsolute_of_isFile hpfile) (hpparts.trans hparts)]

/-- Without a fault, a run of the search ends with nothing left in the queue. -/
theorem exists_final (hall : ∀ config, Reached t root config → ∀ reference ∈ config.references,
      t.isFile reference = true → ∃ config', configAt t root reference = .ok config')
    {queue : List Path} {result : Except Fault (List Config)}
    (hrun : Follows t (Config.load t) seen queue found result)
    (h : Search t root order seen queue found) :
    ∃ final order' seen', result = .ok final ∧ Search t root order' seen' [] final := by
  induction hrun generalizing order with
  | done => exact ⟨_, _, _, rfl, h⟩
  | again hseen _ ih =>
    obtain ⟨order', h'⟩ := h.again hseen
    exact ih h'
  | missing _ hfile _ ih => exact ih (h.missing hfile)
  | unloaded hnew hfile hload =>
    obtain ⟨source, hsource, hmem⟩ := h.sources _ List.mem_cons_self
    obtain ⟨config, hconfig⟩ := hall source (h.reached source hsource).1 _ hmem hfile
    rw [h.configAt_eq hnew hfile, hload] at hconfig
    cases hconfig
  | project hnew hfile hload _ ih => exact ih (h.project hnew hfile hload)

/-- All that is reached is found. -/
theorem mem_of_reached (h : Search t root order seen [] found) {config : Config}
    (hreached : Reached t root config) : config ∈ found := by
  induction hreached with
  | root => exact List.mem_of_mem_head? h.head
  | @next source config' reference _ hmem hfile hconfig ih =>
    have hcanonical := (h.reached source ih).2.1 reference hmem
    have horder : reference.parts ∈ order := by
      have hqueue := h.completes
      rw [List.filter_nil, List.map_nil, List.append_nil] at hqueue
      rw [hqueue]
      refine List.mem_cons_of_mem _ (List.mem_flatMap.mpr ⟨source, ih, ?_⟩)
      exact List.mem_map.mpr ⟨reference, List.mem_filter.mpr ⟨hmem, hfile⟩, rfl⟩
    rw [← List.mem_eraseDups, ← h.keys] at horder
    obtain ⟨config, hfound, hparts⟩ := List.mem_map.mp horder
    have hat := (h.reached config hfound).2.2 reference hcanonical hfile hparts.symm
    rw [hconfig] at hat
    rwa [Except.ok.inj hat]

end Search

/-- Following the references of a root ends, whatever the files are: a run without a limit is
finite and gives the projects. Where everything that is reached can be loaded, these are the root
and all that references over files lead to, each path once. They come breadth first: the root, then
what it refers to, then what the first of these refers to, and so on, every path where it comes up
first. -/
theorem ofRoot_finds {path : Path} (hroot : Config.load t path = .ok root) :
    (∃ result, Follows t (Config.load t) [root.path] root.references [root] result ∧
      Registry.ofRoot t root = result.map Registry.mk) ∧
    ((∀ config, Reached t root config → ∀ reference ∈ config.references,
        t.isFile reference = true → ∃ config', configAt t root reference = .ok config') →
      ∃ registry, Registry.ofRoot t root = .ok registry ∧
        registry.projects.head? = some root ∧
        (∀ config, config ∈ registry.projects ↔ Reached t root config) ∧
        (registry.projects.Pairwise fun one other => one.path.same other.path = false) ∧
        registry.projects.map (·.path.parts) =
          (root.path.parts :: registry.projects.flatMap (fileReferences t)).eraseDups) := by
  have hrun : Follows t (Config.load t) [root.path] root.references [root]
      (Registry.follow t (Config.load t) wayLimit [root.path] root.references [root]) :=
    follows_follow (room_lt_wayLimit [root.path])
  refine ⟨⟨_, hrun, rfl⟩, fun hall => ?_⟩
  obtain ⟨final, order, seen, hresult, hsearch⟩ :=
    Search.exists_final hall hrun (search_root (of_load_eq_ok hroot).2)
  have hprojects : Registry.ofRoot t root = .ok ⟨final⟩ := by
    rw [Registry.ofRoot, hresult]
    rfl
  have horder : order = root.path.parts :: final.flatMap (fileReferences t) := by
    have hcompletes := hsearch.completes
    rwa [List.filter_nil, List.map_nil, List.append_nil] at hcompletes
  refine ⟨⟨final⟩, hprojects, hsearch.head, fun config => ⟨fun hmem =>
    (hsearch.reached config hmem).1, hsearch.mem_of_reached⟩, ?_, by rw [hsearch.keys, horder]⟩
  have hnodup : (final.map (·.path.parts)).Nodup := by
    rw [hsearch.keys]
    exact nodup_eraseDups order
  exact (List.pairwise_map.mp hnodup).imp fun hne => beq_eq_false_iff_ne.mpr hne

/-- The configuration of a file that extends nothing. -/
def alone (t : Files.Tree) (path : Path) : Option Config :=
  (readFile t path.normalize).toOption.bind fun json =>
    if extendedBy json = [] then
      (Config.assemble path.normalize (Layer.overlay {} (ownLayer json path.normalize))
        json).toOption
    else none

/-- A file that extends nothing is loaded as it is. -/
theorem load_of_alone {path : Path} {config : Config} (h : alone t path = some config) :
    Config.load t path = .ok config := by
  cases hread : readFile t path.normalize with
  | error fault => simp [alone, hread, Except.toOption] at h
  | ok json =>
    have hway : ¬ OnWay [] path.normalize := fun ⟨_, hmem, _⟩ => by cases hmem
    by_cases hnone : extendedBy json = []
    · have hlayer : loadLayer t [] path.normalize =
          .ok (Layer.overlay {} (ownLayer json path.normalize), json) := by
        rw [loadLayer_of_not_onWay hway, hread]
        show (extendAll t _ path.normalize (extendedBy json) {}).map _ = _
        rw [hnone]
        rfl
      cases hassemble : Config.assemble path.normalize
          (Layer.overlay {} (ownLayer json path.normalize)) json with
      | error fault => simp [alone, hread, Except.toOption, hnone, hassemble] at h
      | ok config' =>
        have hconfig : config' = config := by
          simpa [alone, hread, Except.toOption, hnone, hassemble] using h
        rw [Config.load, hlayer, ← hconfig]
        exact hassemble
    · simp [alone, hread, Except.toOption, hnone] at h

/-- A file that refers to others. -/
def referring (references : List String) : Files.Entry :=
  let entries := references.map fun r => "\x7b\x22path\x22:\x22" ++ r ++ "\x22\x7d"
  .ofText ("\x7b\x22references\x22:[" ++ ",".intercalate entries ++ "]\x7d")

/-- A root that refers to a project and to one that is not there, and a project that refers to the
root and to itself. -/
def pair : Files.Tree :=
  ⟨[(["tsconfig.json"], referring ["a", "gone"]), (["a"], .directory),
    (["a", "tsconfig.json"], referring ["..", "."])]⟩

/-- A root and a project that refer to each other are found once each. -/
theorem ofRoot_finds_pair : ∃ root project registry,
    Config.load pair ⟨"/tsconfig.json"⟩ = .ok root ∧
    Config.load pair ⟨"/a/tsconfig.json"⟩ = .ok project ∧
    Registry.ofRoot pair root = .ok registry ∧ registry.projects.head? = some root ∧
    ∀ config, config ∈ registry.projects ↔ config = root ∨ config = project := by
  have hload (path : Path) (references : List Path) (h : (alone pair path).map
      (fun config => (config.path, config.references)) = some (path, references)) :
      ∃ config, Config.load pair path = .ok config ∧ config.path = path ∧
        config.references = references := by
    obtain ⟨config, hconfig, hfields⟩ := Option.map_eq_some_iff.mp h
    exact ⟨config, load_of_alone hconfig, congrArg Prod.fst hfields, congrArg Prod.snd hfields⟩
  obtain ⟨root, hroot, hpath, hreferences⟩ := hload ⟨"/tsconfig.json"⟩
    [⟨"/a/tsconfig.json"⟩, ⟨"/gone/tsconfig.json"⟩] (by decide +kernel)
  obtain ⟨project, hproject, -, hreferences'⟩ := hload ⟨"/a/tsconfig.json"⟩
    [⟨"/tsconfig.json"⟩, ⟨"/a/tsconfig.json"⟩] (by decide +kernel)
  have hat : configAt pair root ⟨"/tsconfig.json"⟩ = .ok root := by
    rw [configAt, hpath, if_pos (by decide)]
  have hat' : configAt pair root ⟨"/a/tsconfig.json"⟩ = .ok project := by
    rw [configAt, hpath, if_neg (by decide), hproject]
  have hgone : pair.isFile ⟨"/gone/tsconfig.json"⟩ = false := by decide +kernel
  have hnext : ∀ config, config = root ∨ config = project → ∀ reference ∈ config.references,
      pair.isFile reference = true →
      ∃ config', configAt pair root reference = .ok config' ∧
        (config' = root ∨ config' = project) := by
    rintro config (rfl | rfl) reference hmem hfile
    · rw [hreferences] at hmem
      simp only [List.mem_cons, List.not_mem_nil, or_false] at hmem
      rcases hmem with rfl | rfl
      · exact ⟨project, hat', .inr rfl⟩
      · rw [hgone] at hfile
        cases hfile
    · rw [hreferences'] at hmem
      simp only [List.mem_cons, List.not_mem_nil, or_false] at hmem
      rcases hmem with rfl | rfl
      · exact ⟨root, hat, .inl rfl⟩
      · exact ⟨config, hat', .inr rfl⟩
  have hreached : ∀ config, Reached pair root config → config = root ∨ config = project := by
    intro config h
    induction h with
    | root => exact .inl rfl
    | next _ hmem hfile hconfig ih =>
      obtain ⟨config', hconfig', hor⟩ := hnext _ ih _ hmem hfile
      rw [hconfig] at hconfig'
      rwa [Except.ok.inj hconfig']
  obtain ⟨registry, hregistry, hhead, hprojects, -, -⟩ := (ofRoot_finds hroot).2
    fun config h reference hmem hfile =>
      (hnext config (hreached config h) reference hmem hfile).imp fun _ h => h.1
  refine ⟨root, project, registry, hroot, hproject, hregistry, hhead, fun config => ?_⟩
  rw [hprojects]
  refine ⟨hreached config, ?_⟩
  rintro (rfl | rfl)
  · exact .root
  · have hmem : ⟨"/a/tsconfig.json"⟩ ∈ root.references := by
      rw [hreferences]
      exact List.mem_cons_self
    exact .next .root hmem (by decide +kernel) hat'

end ScriptModules.Project

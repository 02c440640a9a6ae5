import ScriptModules.Proofs.Project.Extends

/-!
# Ways through what configurations extend

A way leads from a configuration to one that it extends, as long as that is not on the way already.
A way that comes back to a file on it is a fault, and nothing else is such a fault: a file that two
others extend is read for each of them.
-/

namespace ScriptModules.Project

open Json (Value)

variable {t : Files.Tree} {root path base : Path} {chain rest : List Path}

/-- A configuration that is loaded next, after all that the same file names before it. -/
def Next (t : Files.Tree) (chain : List Path) (path base : Path) : Prop :=
  ∃ json before extended after bases, readFile t path = .ok json ∧
    extendedBy json = before ++ extended :: after ∧
    List.Forall₂ (Loaded t (loadLayer t (path :: chain)) path) before bases ∧
    findExtended? t (dirOf path) extended = some base

/-- The files on a way that is taken from a root, the last one first. -/
inductive Way (t : Files.Tree) (root : Path) : List Path → Prop
  | root : Way t root [root]
  | next {path base : Path} {rest : List Path} (h : Way t root (path :: rest))
    (hnext : Next t rest path base) (hnew : ¬ OnWay (path :: rest) base) :
    Way t root (base :: path :: rest)

/-- A configuration that is loaded next is extended by the one before. -/
theorem Next.extends (h : Next t chain path base) : Extends t path base := by
  obtain ⟨json, before, extended, after, -, hread, hnames, -, hfound⟩ := h
  exact ⟨json, extended, hread, by simp [hnames], hfound⟩

/-- A file on a way is not on the way before. -/
theorem Way.not_onWay (h : Way t root (path :: rest)) : ¬ OnWay rest path := by
  cases h with
  | root => rintro ⟨_, hmem, -⟩; cases hmem
  | next _ _ hnew => exact hnew

/-- No file on a way is spelled like another. -/
theorem Way.pairwise (h : Way t root chain) :
    chain.Pairwise fun later earlier => earlier.same later = false := by
  induction h with
  | root => exact List.pairwise_singleton _ _
  | next _ _ hnew ih =>
    refine List.pairwise_cons.mpr ⟨fun earlier hmem => ?_, ih⟩
    exact Bool.eq_false_iff.mpr fun hsame => hnew ⟨earlier, hmem, hsame⟩

/-- The files before the last one on a way are read, and take up room. -/
theorem Way.length_add_room_le (h : Way t root (path :: rest)) :
    rest.length + room rest ≤ room [] := by
  generalize hchain : path :: rest = chain at h
  induction h generalizing path rest with
  | root =>
    obtain ⟨-, rfl⟩ := List.cons.inj hchain
    simp
  | @next path' base rest' hway hnext hnew ih =>
    obtain ⟨-, rfl⟩ := List.cons.inj hchain
    have hless : room (path' :: rest') < room rest' := hnext.extends.room_lt hway.not_onWay
    have hle := ih rfl
    rw [List.length_cons]
    omega

/-- What cannot be loaded next is not loaded before that either. -/
theorem Next.error (h : Next t rest path base) (hnot : ¬ OnWay rest path) {fault : Fault}
    (hload : loadLayer t (path :: rest) base = .error fault) :
    loadLayer t rest path = .error fault := by
  obtain ⟨json, before, extended, after, bases, hread, hnames, hbases, hfound⟩ := h
  exact (Visit.unloaded hnot hread hnames hbases (.base hfound hload)).eq

/-- A fault at the end of a way is that of its root. -/
theorem Way.error (h : Way t root (path :: rest)) {fault : Fault}
    (hload : loadLayer t rest path = .error fault) : loadLayer t [] root = .error fault := by
  generalize hchain : path :: rest = chain at h
  induction h generalizing path rest with
  | root =>
    obtain ⟨rfl, rfl⟩ := List.cons.inj hchain
    exact hload
  | next hway hnext hnew ih =>
    obtain ⟨rfl, rfl⟩ := List.cons.inj hchain
    exact ih (hnext.error hway.not_onWay hload) rfl

/-- Reading a file tells of no circle. -/
theorem ne_circularExtends_of_readFile {fault : Fault} (h : readFile t path = .error fault) :
    fault ≠ .circularExtends base := by
  rcases eq_error_or_exists_of_bind_eq_error h with h | ⟨content, -, h⟩ <;>
    obtain ⟨cause, -, rfl⟩ := exists_of_mapError_eq_error h <;>
    exact Fault.noConfusion

/-- A fault that tells of a circle is made where a way comes back to a file on it. -/
theorem Way.exists_return (h : Way t root (path :: rest))
    (hload : loadLayer t rest path = .error (.circularExtends base)) :
    ∃ last before, Way t root (last :: before) ∧ Next t before last base ∧
      OnWay (last :: before) base := by
  induction hplace : (rest, path) using (calls_wellFounded t).induction
    generalizing rest path with
  | _ place ih =>
    subst hplace
    have hvisit := visit_loadLayer t rest path
    rw [hload] at hvisit
    cases hvisit with
    | onWay hway => exact absurd hway h.not_onWay
    | unread _ hread => exact absurd rfl (ne_circularExtends_of_readFile hread)
    | unloaded hnot hread hnames hbases hfault =>
      cases hfault with
      | @base next _ hfound hnext =>
        have hstep : Next t rest path next := ⟨_, _, _, _, _, hread, hnames, hbases, hfound⟩
        by_cases hway : OnWay (path :: rest) next
        · rw [loadLayer_onWay hway] at hnext
          obtain rfl := Fault.circularExtends.inj (Except.error.inj hnext)
          exact ⟨path, rest, h, hstep, hway⟩
        · exact ih (path :: rest, next) ⟨hnot, rfl, hstep.extends⟩ (h.next hstep hway) hnext rfl

/-- A circle is told exactly where a way comes back to a file on it. -/
theorem loadLayer_eq_circularExtends_iff :
    loadLayer t [] root = .error (.circularExtends base) ↔
      ∃ path rest, Way t root (path :: rest) ∧ Next t rest path base ∧
        OnWay (path :: rest) base := by
  constructor
  · exact Way.root.exists_return
  · rintro ⟨path, rest, hway, hnext, hon⟩
    exact hway.error (hnext.error hway.not_onWay (loadLayer_onWay hon))

/-- What is told of patterns are faults of globs. -/
theorem exists_glob_of_globsOf {config configDir : Path} {covering : String} {d : Declared}
    {fault : Fault} (h : globsOf config configDir covering d = .error fault) :
    ∃ pattern cause, fault = .glob config pattern cause := by
  obtain ⟨pattern, -, hpattern⟩ := exists_of_mapM_eq_error h
  dsimp only at hpattern
  split at hpattern
  · cases hpattern
  · exact ⟨_, _, (Except.error.inj hpattern).symm⟩

/-- A configuration that is loaded fails only at a pattern. -/
theorem exists_glob_of_assemble {layer : Layer} {json : Value} {fault : Fault}
    (h : Config.assemble path layer json = .error fault) :
    ∃ pattern cause, fault = .glob path pattern cause := by
  have hscope : scopeOf path (dirOf path) layer = .error fault := by
    rcases eq_error_or_exists_of_bind_eq_error h with h | ⟨_, -, h⟩
    · exact h
    · cases h
  unfold scopeOf at hscope
  extract_lets files included excludes at hscope
  have hexcludes (included : Option (List (List Glob.Token)))
      (h : excludes included = .error fault) :
      ∃ pattern cause, fault = .glob path pattern cause := by
    rcases eq_error_or_exists_of_bind_eq_error h with h | ⟨_, -, h⟩
    · exact exists_glob_of_globsOf h
    · cases h
  cases hincluded : included with
  | none =>
    rw [hincluded] at hscope
    exact hexcludes none hscope
  | some d =>
    rw [hincluded] at hscope
    rcases eq_error_or_exists_of_bind_eq_error hscope with h | ⟨tokens, -, h⟩
    · exact exists_glob_of_globsOf (eq_error_of_map_eq_error h)
    · exact hexcludes tokens h

/-- A configuration fails with a circle if its layers do. -/
theorem load_eq_circularExtends_iff {file : Path} :
    Config.load t file = .error (.circularExtends base) ↔
      loadLayer t [] file.normalize = .error (.circularExtends base) := by
  constructor
  · intro h
    rcases eq_error_or_exists_of_bind_eq_error h with h | ⟨⟨layer, json⟩, -, h⟩
    · exact h
    · obtain ⟨_, _, hglob⟩ := exists_glob_of_assemble h
      cases hglob
  · intro h
    rw [Config.load]
    simp only [h]
    rfl

end ScriptModules.Project

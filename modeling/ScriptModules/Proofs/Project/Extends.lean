import ScriptModules.Proofs.Except
import ScriptModules.Proofs.Project.Room

/-!
# Following what configurations extend

A file is read with the files on the way to it at hand, and none of these is read again. Every file
that is read leaves less room, so following ends without the limit, and what it gives is what its
own recursion determines.
-/

namespace ScriptModules.Project

open Files.Tree (TooLong)
open Json (Value)

variable {t : Files.Tree} {load load' : Path → Except Fault (Layer × Value)} {path : Path}

/-- Extended configurations that are found and loaded, with their layers. -/
def Loaded (t : Files.Tree) (load : Path → Except Fault (Layer × Value)) (path : Path)
    (extended : String) (base : Path × Layer × Value) : Prop :=
  findExtended? t (dirOf path) extended = some base.1 ∧ load base.1 = .ok base.2

/-- Why an extended configuration is not merged. -/
inductive Unloaded (t : Files.Tree) (load : Path → Except Fault (Layer × Value)) (path : Path)
    (extended : String) : Fault → Prop
  | missing (h : findExtended? t (dirOf path) extended = none) :
    Unloaded t load path extended (.extendsNotFound extended path)
  | base {base : Path} {fault : Fault} (h : findExtended? t (dirOf path) extended = some base)
    (hload : load base = .error fault) : Unloaded t load path extended fault

/-- An extended configuration that is loaded is merged before the next. -/
theorem extendAll_of_loaded {extended : String} {base : Path × Layer × Value}
    (h : Loaded t load path extended base) (rest : List String) (merged : Layer) :
    extendAll t load path (extended :: rest) merged =
      extendAll t load path rest (merged.overlay base.2.1) := by
  rw [extendAll, h.1]
  simp only [h.2]
  rfl

/-- An extended configuration that is not loaded ends the loading with its fault. -/
theorem extendAll_of_unloaded {extended : String} {fault : Fault}
    (h : Unloaded t load path extended fault) (rest : List String) (merged : Layer) :
    extendAll t load path (extended :: rest) merged = .error fault := by
  cases h with
  | missing h => rw [extendAll, h]
  | base h hload =>
    rw [extendAll, h]
    simp only [hload]
    rfl

/-- An extended configuration is merged or it is not. -/
theorem loaded_or_unloaded (t : Files.Tree) (load : Path → Except Fault (Layer × Value))
    (path : Path) (extended : String) :
    (∃ base, Loaded t load path extended base) ∨ ∃ fault, Unloaded t load path extended fault := by
  cases hfound : findExtended? t (dirOf path) extended with
  | none => exact Or.inr ⟨_, .missing hfound⟩
  | some base =>
    cases hload : load base with
    | error fault => exact Or.inr ⟨fault, .base hfound hload⟩
    | ok pair => exact Or.inl ⟨(base, pair), hfound, hload⟩

/-- Those that are loaded are merged in order before the others are looked at. -/
theorem extendAll_append {before : List String} {bases : List (Path × Layer × Value)}
    (h : List.Forall₂ (Loaded t load path) before bases) (rest : List String) (merged : Layer) :
    extendAll t load path (before ++ rest) merged =
      extendAll t load path rest
        (bases.foldl (fun below base => below.overlay base.2.1) merged) := by
  induction h generalizing merged with
  | nil => rfl
  | cons hloaded _ ih => rw [List.cons_append, extendAll_of_loaded hloaded, ih]; rfl

/-- Either all extended configurations are loaded, or there is a first one that is not. -/
theorem all_loaded_or (t : Files.Tree) (load : Path → Except Fault (Layer × Value)) (path : Path)
    (names : List String) :
    (∃ bases, List.Forall₂ (Loaded t load path) names bases) ∨
    ∃ before extended after bases fault, names = before ++ extended :: after ∧
      List.Forall₂ (Loaded t load path) before bases ∧ Unloaded t load path extended fault := by
  induction names with
  | nil => exact Or.inl ⟨[], .nil⟩
  | cons extended rest ih =>
    rcases loaded_or_unloaded t load path extended with ⟨base, hbase⟩ | ⟨fault, hfault⟩
    · rcases ih with ⟨bases, hbases⟩ | ⟨before, other, after, bases, fault, rfl, hbases, hfault⟩
      · exact Or.inl ⟨base :: bases, .cons hbase hbases⟩
      · exact Or.inr ⟨extended :: before, other, after, base :: bases, fault, rfl,
          .cons hbase hbases, hfault⟩
    · exact Or.inr ⟨[], extended, rest, [], fault, rfl, .nil, hfault⟩

/-- Only the extended configurations that are found are loaded. -/
theorem extendAll_congr {names : List String}
    (h : ∀ extended ∈ names, ∀ base, findExtended? t (dirOf path) extended = some base →
      load base = load' base) (merged : Layer) :
    extendAll t load path names merged = extendAll t load' path names merged := by
  induction names generalizing merged with
  | nil => rfl
  | cons extended rest ih =>
    have hrest := ih fun other hother => h other (List.mem_cons_of_mem _ hother)
    rw [extendAll, extendAll]
    cases hfound : findExtended? t (dirOf path) extended with
    | none => rfl
    | some base => simp only [h extended List.mem_cons_self base hfound, hrest]

/-- One configuration extends another. -/
def Extends (t : Files.Tree) (path base : Path) : Prop :=
  ∃ json extended, readFile t path = .ok json ∧ extended ∈ extendedBy json ∧
    findExtended? t (dirOf path) extended = some base

/-- A file that is on the way is not read again. -/
def OnWay (chain : List Path) (path : Path) : Prop := ∃ seen ∈ chain, seen.same path = true

/-- A file is looked for on the way by its spelling. -/
theorem any_same_iff (chain : List Path) (path : Path) :
    chain.any (·.same path) = true ↔ OnWay chain path := List.any_eq_true

/-- A file that is read holds the text of its value. -/
theorem of_readFile_eq_ok {json : Value} (h : readFile t path = .ok json) :
    ∃ content, t.readText path = .ok content ∧ Jsonc.parse content = .ok json := by
  obtain ⟨content, hcontent, hparse⟩ := exists_of_bind_eq_ok h
  exact ⟨content, eq_ok_of_mapError_eq_ok hcontent, eq_ok_of_mapError_eq_ok hparse⟩

/-- A file that is read has not too long a path. -/
theorem not_tooLong_of_readFile {json : Value} (h : readFile t path = .ok json) :
    ¬ TooLong path := by
  intro hlong
  obtain ⟨content, hcontent, -⟩ := of_readFile_eq_ok h
  rcases Files.Tree.readText_of_tooLong (t := t) hlong with hread | hread <;>
    rw [hread] at hcontent <;> cases hcontent

/-- What a file comes to depends only on how the files that it extends are loaded. -/
theorem loadStep_congr {load load' : List Path → Path → Except Fault (Layer × Value)}
    {chain : List Path}
    (h : ¬ OnWay chain path → ∀ base, Extends t path base →
      load (path :: chain) base = load' (path :: chain) base) :
    loadStep t load chain path = loadStep t load' chain path := by
  unfold loadStep
  by_cases hway : chain.any (·.same path) = true
  · rw [if_pos hway, if_pos hway]
  · rw [if_neg hway, if_neg hway]
    cases hread : readFile t path with
    | error fault => rfl
    | ok json =>
      have hall : extendAll t (load (path :: chain)) path (extendedBy json) {} =
          extendAll t (load' (path :: chain)) path (extendedBy json) {} :=
        extendAll_congr (fun extended hmem base hfound => h (mt (any_same_iff chain path).mpr hway)
          base ⟨json, extended, hread, hmem, hfound⟩) {}
      show (do let layer ← layerOf t (load (path :: chain)) json path; return (layer, json)) =
        (do let layer ← layerOf t (load' (path :: chain)) json path; return (layer, json))
      rw [layerOf, layerOf, hall]

/-- Reading what a file extends leaves less room. -/
theorem Extends.room_lt {chain : List Path} {base : Path} (h : Extends t path base)
    (hway : ¬ OnWay chain path) : room (path :: chain) < room chain := by
  obtain ⟨json, -, hread, -⟩ := h
  exact room_cons_lt (not_tooLong_of_readFile hread)
    (Bool.eq_false_iff.mpr (mt (any_same_iff _ _).mp hway))

/-- A file on the way to another, which is read next. -/
def Calls (t : Files.Tree) (inner outer : List Path × Path) : Prop :=
  ¬ OnWay outer.1 outer.2 ∧ inner.1 = outer.2 :: outer.1 ∧ Extends t outer.2 inner.2

/-- With every file on the way there is room for fewer. -/
theorem Calls.room_lt {inner outer : List Path × Path} (h : Calls t inner outer) :
    room inner.1 < room outer.1 := by
  obtain ⟨hway, hchain, hextends⟩ := h
  rw [hchain]
  exact hextends.room_lt hway

/-- There is no way without an end. -/
theorem calls_wellFounded (t : Files.Tree) : WellFounded (Calls t) :=
  Subrelation.wf (fun h => h.room_lt)
    (measure fun place : List Path × Path => room place.1).wf

/-- A way to load configurations that loads what they extend in the same way. -/
def Solves (t : Files.Tree) (load : List Path → Path → Except Fault (Layer × Value)) : Prop :=
  ∀ chain path, load chain path = loadStep t load chain path

/-- With enough room below the limits, the limits do not matter. -/
theorem loadWithin_eq {chain : List Path} {path : Path} {m n : Nat} (hm : room chain < m)
    (hn : room chain < n) : loadWithin t m chain path = loadWithin t n chain path := by
  induction m generalizing chain path n with
  | zero => exact absurd hm (Nat.not_lt_zero _)
  | succ m ih =>
    obtain ⟨n, rfl⟩ := Nat.exists_eq_add_one_of_ne_zero (Nat.ne_of_gt (Nat.zero_lt_of_lt hn))
    rw [loadWithin, loadWithin]
    refine loadStep_congr fun hway base hbase => ?_
    have hless : room (path :: chain) < room chain := hbase.room_lt hway
    exact ih (by omega) (by omega)

/-- The layers of a file are loaded as those of what it extends. -/
theorem solves_loadLayer (t : Files.Tree) : Solves t (loadLayer t) := by
  intro chain path
  have hroom := room_lt_wayLimit chain
  rw [loadLayer, loadWithin_eq hroom (Nat.lt_succ_of_lt hroom), loadWithin]

/-- The recursion has only one solution, since every call has less room. -/
theorem Solves.unique {load load' : List Path → Path → Except Fault (Layer × Value)}
    (h : Solves t load) (h' : Solves t load') : load = load' := by
  funext chain path
  induction hplace : (chain, path) using (calls_wellFounded t).induction
    generalizing chain path with
  | _ place ih =>
    subst hplace
    rw [h, h']
    exact loadStep_congr fun hway base hbase =>
      ih (path :: chain, base) ⟨hway, rfl, hbase⟩ _ _ rfl

/-- The layers of extended configurations, each over those before it. -/
def merged (bases : List (Path × Layer × Value)) : Layer :=
  bases.foldl (fun below base => below.overlay base.2.1) {}

/-- What it gives to read a file, with the files on the way to it. -/
inductive Visit (t : Files.Tree) (chain : List Path) (path : Path) :
    Except Fault (Layer × Value) → Prop
  | onWay (h : OnWay chain path) : Visit t chain path (.error (.circularExtends path))
  | unread {fault : Fault} (h : ¬ OnWay chain path) (hread : readFile t path = .error fault) :
    Visit t chain path (.error fault)
  | unloaded {json : Value} {before after : List String} {extended : String}
    {bases : List (Path × Layer × Value)} {fault : Fault} (h : ¬ OnWay chain path)
    (hread : readFile t path = .ok json) (hnames : extendedBy json = before ++ extended :: after)
    (hbases : List.Forall₂ (Loaded t (loadLayer t (path :: chain)) path) before bases)
    (hfault : Unloaded t (loadLayer t (path :: chain)) path extended fault) :
    Visit t chain path (.error fault)
  | loaded {json : Value} {bases : List (Path × Layer × Value)} (h : ¬ OnWay chain path)
    (hread : readFile t path = .ok json)
    (hbases : List.Forall₂ (Loaded t (loadLayer t (path :: chain)) path) (extendedBy json) bases) :
    Visit t chain path (.ok ((merged bases).overlay (ownLayer json path), json))

/-- A file that is on the way already is a circle. -/
theorem loadLayer_onWay {chain : List Path} (h : OnWay chain path) :
    loadLayer t chain path = .error (.circularExtends path) := by
  rw [solves_loadLayer t, loadStep, if_pos ((any_same_iff _ _).mpr h)]

/-- A file that is not on the way is read, and what it extends is merged. -/
theorem loadLayer_of_not_onWay {chain : List Path} (h : ¬ OnWay chain path) :
    loadLayer t chain path = readFile t path >>= fun json =>
      (extendAll t (loadLayer t (path :: chain)) path (extendedBy json) {}).map fun below =>
        (below.overlay (ownLayer json path), json) := by
  rw [solves_loadLayer t, loadStep, if_neg (mt (any_same_iff _ _).mp h)]
  cases readFile t path with
  | error fault => rfl
  | ok json =>
    simp only [layerOf, bind, Except.bind]
    cases extendAll t (loadLayer t (path :: chain)) path (extendedBy json) {} <;> rfl

/-- There is one thing that it gives to read a file with the files on the way. -/
theorem Visit.eq {chain : List Path} {result : Except Fault (Layer × Value)}
    (h : Visit t chain path result) : loadLayer t chain path = result := by
  cases h with
  | onWay h => exact loadLayer_onWay h
  | unread h hread => rw [loadLayer_of_not_onWay h, hread]; rfl
  | unloaded h hread hnames hbases hfault =>
    rw [loadLayer_of_not_onWay h, hread]
    show (extendAll t _ path (extendedBy _) {}).map _ = _
    rw [hnames, extendAll_append hbases, extendAll_of_unloaded hfault]
    rfl
  | loaded h hread hbases =>
    rw [loadLayer_of_not_onWay h, hread]
    show (extendAll t _ path (extendedBy _) {}).map _ = _
    have hall := extendAll_append hbases [] {}
    rw [List.append_nil] at hall
    rw [hall]
    rfl

/-- Reading a file gives what its visit says. -/
theorem visit_loadLayer (t : Files.Tree) (chain : List Path) (path : Path) :
    Visit t chain path (loadLayer t chain path) := by
  have hvisit : ∃ result, Visit t chain path result := by
    by_cases h : OnWay chain path
    · exact ⟨_, .onWay h⟩
    · cases hread : readFile t path with
      | error fault => exact ⟨_, .unread h hread⟩
      | ok json =>
        rcases all_loaded_or t (loadLayer t (path :: chain)) path (extendedBy json) with
          ⟨bases, hbases⟩ | ⟨before, extended, after, bases, fault, hnames, hbases, hfault⟩
        · exact ⟨_, .loaded h hread hbases⟩
        · exact ⟨_, .unloaded h hread hnames hbases hfault⟩
  obtain ⟨result, hresult⟩ := hvisit
  exact hresult.eq ▸ hresult

end ScriptModules.Project

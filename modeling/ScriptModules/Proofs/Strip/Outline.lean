import ScriptModules.Proofs.Grammar.Constructs
import ScriptModules.Proofs.Strip.Blanking
import ScriptModules.Proofs.Strip.Imports
import ScriptModules.Proofs.Strip.Moves

/-!
# Outlines of a program

An outline lists the trees of a program in source order and leaves some of them out. A survey
answers for one such outline: it fails for the first tree there that is refused, at the line and
column where that tree starts, and otherwise the names in it are those that are used as values. The
outline is not what blanking whole trees leaves of the program, because a survey refuses some import
statements that it would blank, does not look into the others, and looks at decorators that are
blanked along with the declaration after them.
-/

namespace ScriptModules

namespace Strip

open Grammar (Forest Kind Span Tree)

/-- What an outline lists of a program. -/
structure View where
  /-- The trees that are left out, along with all that is below them. -/
  leavesOut : Tree → Bool
  /-- How many parts of a tree are listed. -/
  shown : Tree → Nat

namespace View

mutual

/-- A tree and what is below it in source order, as far as a view lists them. -/
def outline (v : View) : Tree → List Tree
  | t@(.leaf _ _ _) => if v.leavesOut t then [] else [t]
  | t@(.node _ _ children) =>
    if v.leavesOut t then [] else t :: outlineFirst v (v.shown t) children

/-- The outlines of some trees, up to a number of them, one after the other. -/
def outlineFirst (v : View) : Nat → List Tree → List Tree
  | _, [] => []
  | 0, _ => []
  | n + 1, t :: ts => outline v t ++ outlineFirst v n ts

end

variable (v : View) {t u : Tree} {ts : List Tree}

@[simp] theorem outlineFirst_nil (n : Nat) : v.outlineFirst n [] = [] := by
  cases n <;> rfl

@[simp] theorem outlineFirst_zero (ts : List Tree) : v.outlineFirst 0 ts = [] := by
  cases ts <;> rfl

@[simp] theorem outlineFirst_succ (n : Nat) (t : Tree) (ts : List Tree) :
    v.outlineFirst (n + 1) (t :: ts) = v.outline t ++ v.outlineFirst n ts := rfl

/-- An outline lists a tree and what is below it, or leaves it out. -/
theorem outline_eq (t : Tree) : v.outline t =
    if v.leavesOut t then [] else t :: v.outlineFirst (v.shown t) t.children := by
  cases t with
  | leaf => rw [Tree.children, outlineFirst_nil]; rfl
  | node => rfl

end View

/-- Whether a parameter is a property of its class as well. -/
def isProperty (t : Tree) : Bool :=
  t.hasChild .accessibility || t.hasChild .overriding || t.hasChild (.mark "readonly")

/-- Whether a tree is blanked as a whole: types, and what leaves nothing behind at run time. -/
def isErased (t : Tree) : Bool :=
  let has (text : String) : Bool := t.hasChild (.mark text)
  isTypeOnly t.kind || isTypeDeclaration t.kind ||
    match t.kind with
    | .importStatement => isMarked t
    | .exportStatement => !has "=" && (has "type" || has "namespace")
    | .importSpecifier | .exportSpecifier => has "type"
    | .requiredParameter | .optionalParameter => !isProperty t && has "this"
    | .field => has "declare" || has "abstract"
    | _ => false

/-- The construct that a tree is refused for, if it is. -/
def refusal? (t : Tree) : Option Construct :=
  match t.kind with
  | .enumDeclaration => some .enumeration
  | .namespaceDeclaration => some .namespaceBlock
  | .importAlias => some .importAlias
  | .element | .selfClosingElement => some .markup
  | .importStatement => if t.hasChild .importRequireClause then some .importRequire else none
  | .exportStatement => if t.hasChild (.mark "=") then some .exportAssignment else none
  | .requiredParameter | .optionalParameter =>
    if isProperty t then some .parameterProperty else none
  | _ => none

/-- Whether a tree is a name that is used as a value. -/
def isName (t : Tree) : Bool := t.kind == .identifier || t.kind == .shorthand

/-- A survey looks neither at what is blanked as a whole, unless that is refused, nor into import
statements. It does not look at the type that a value is said to have. -/
def surveyed : View where
  leavesOut t := isErased t && (refusal? t).isNone
  shown t :=
    match t.kind with
    | .importStatement => 0
    | .asExpression | .satisfiesExpression => 1
    | _ => t.children.length

/-- Whether a tree exports a declaration that leaves nothing behind at run time. It is blanked as a
whole then. -/
def exportsType (t : Tree) : Bool :=
  t.kind == .exportStatement && t.children.any fun u => isTypeDeclaration u.kind

/-- What is left of a program besides the trees that are blanked as a whole. -/
def remaining : View where
  leavesOut t := isErased t || exportsType t
  shown t :=
    match t.kind with
    | .asExpression | .satisfiesExpression => 1
    | _ => t.children.length

variable {source : List Char} {export? : Option Span} {next? : Option Tree} {t : Tree}
  {ts us : List Tree} {x y : Except Unsupported Findings} {f g : Findings}

/-- What a survey says of a tree that is refused. -/
def refused? (t : Tree) : Option Unsupported := (refusal? t).map fun c => ⟨c, t.span.start⟩

/-- The texts of the names among some trees. -/
def names (ts : List Tree) : List String := (ts.filter isName).map Tree.text

@[simp] theorem names_append (ts us : List Tree) : names (ts ++ us) = names ts ++ names us := by
  simp [names]

/-- A survey fails for the first of some trees that is refused, and else finds their names. -/
structure Answers (ts : List Tree) (x : Except Unsupported Findings) : Prop where
  fault : ∀ u, x = .error u → ts.findSome? refused? = some u
  used : ∀ f, x = .ok f → ts.findSome? refused? = none ∧ f.used = names ts

namespace Answers

/-- To refuse is the answer if the first refused tree is told. -/
theorem of_error {u : Unsupported} (h : ts.findSome? refused? = some u) :
    Answers ts (.error u) where
  fault _ hu := Except.error.inj hu ▸ h
  used _ h := nomatch h

/-- To find names is the answer if none is refused and all names are told. -/
theorem of_ok (h : ts.findSome? refused? = none) (hused : f.used = names ts) :
    Answers ts (.ok f) where
  fault _ h := nomatch h
  used _ hf := Except.ok.inj hf ▸ ⟨h, hused⟩

/-- A survey of some trees after another one. -/
theorem append (hx : Answers ts x) (hy : Answers us y) :
    Answers (ts ++ us) (do
      let f ← x
      let g ← y
      return f ++ g) := by
  cases x with
  | error u => exact of_error (by rw [List.findSome?_append, hx.fault u rfl, Option.some_or])
  | ok f =>
    obtain ⟨hnone, hused⟩ := hx.used f rfl
    cases y with
    | error u =>
      exact of_error (by rw [List.findSome?_append, hnone, hy.fault u rfl, Option.none_or])
    | ok g =>
      obtain ⟨hnone', hused'⟩ := hy.used g rfl
      refine of_ok (by rw [List.findSome?_append, hnone, hnone', Option.none_or]) ?_
      rw [names_append, ← hused, ← hused']
      rfl

/-- A survey of what is below a tree. -/
theorem cons (h : refusal? t = none) (hname : isName t = false) (hf : f.used = [])
    (hx : Answers ts x) : Answers (t :: ts) (x.map (f ++ ·)) := by
  have ht : refused? t = none := by rw [refused?, h, Option.map_none]
  cases x with
  | error u => exact of_error (by rw [List.findSome?_cons_of_isNone (by simp [ht]), hx.fault u rfl])
  | ok g =>
    obtain ⟨hnone, hused⟩ := hx.used g rfl
    refine of_ok (by rw [List.findSome?_cons_of_isNone (by simp [ht]), hnone]) ?_
    have hnames : names (t :: ts) = names ts := by
      rw [names, List.filter_cons_of_neg (by simp [hname]), names]
    rw [hnames, ← hused, show (f ++ g).used = f.used ++ g.used from rfl, hf, List.nil_append]

end Answers

/-- What the survey of a tree does with it fits what an outline lists there. -/
def Action.Fits (t : Tree) : Action → Prop
  | .refuse c => refusal? t = some c
  | .record f => refusal? t = none ∧
    (isErased t = true ∧ f.used = [] ∨ isErased t = false ∧ isName t = true ∧ f.used = [t.text])
  | .descend f => refusal? t = none ∧ isErased t = false ∧ isName t = false ∧ f.used = [] ∧
    surveyed.shown t = t.children.length
  | .descendFirst f => refusal? t = none ∧ isErased t = false ∧ isName t = false ∧ f.used = [] ∧
    surveyed.shown t = 1
  | .importStatement => t.kind = .importStatement

/-- What is only about types is not refused. -/
theorem refusal?_of_isTypeOnly (h : isTypeOnly t.kind = true) : refusal? t = none := by
  unfold refusal?
  split <;> first | rfl | (rename_i hkind; rw [hkind] at h; cases h)

/-- A declaration of types is not refused. -/
theorem refusal?_of_isTypeDeclaration (h : isTypeDeclaration t.kind = true) :
    refusal? t = none := by
  unfold refusal?
  split <;> first | rfl | (rename_i hkind; rw [hkind] at h; cases h)

/-- What a function says about its result uses no names. -/
theorem used_surveyReturnType (source : List Char) (t : Tree) :
    (surveyReturnType source t).used = [] := by
  unfold surveyReturnType
  dsimp only
  split
  · split
    · split <;> rfl
    · rfl
  · rfl

/-- What a survey does with a tree fits what the outline lists. -/
theorem fits_actionAt (source : List Char) (export? : Option Span) (next? : Option Tree)
    (t : Tree) : (actionAt source export? next? t).Fits t := by
  unfold actionAt
  dsimp only
  split
  · rename_i htype
    exact ⟨refusal?_of_isTypeOnly htype, .inl ⟨by simp [isErased, htype], rfl⟩⟩
  · rename_i htype
    split
    · rename_i hdeclaration
      exact ⟨refusal?_of_isTypeDeclaration hdeclaration,
        .inl ⟨by simp [isErased, hdeclaration], rfl⟩⟩
    · -- one case for each kind that has an action of its own, and for what decides on the action
      split <;> (try split) <;> (try split) <;>
        simp_all [Action.Fits, refusal?, isErased, isName, isProperty, surveyed,
          Findings.ofBlanks, used_surveyReturnType]

/-- A survey of a tree does what the action there says. -/
theorem survey_eq (source : List Char) (export? : Option Span) (next? : Option Tree) (t : Tree) :
    survey source export? next? t =
      match actionAt source export? next? t with
      | .refuse c => .error ⟨c, t.span.start⟩
      | .record f => .ok f
      | .importStatement => surveyImport t
      | .descend f => (surveyAll source (exportRange? t) t.children).map (f ++ ·)
      | .descendFirst f => (surveyFirst source t.children).map (f ++ ·) := by
  rw [survey.eq_def]
  cases actionAt source export? next? t <;> cases t <;> first
    | rfl
    | exact congrArg Except.ok (Findings.append_empty _).symm

/-- Of a tree that is erased and not refused, nothing is listed. -/
theorem outline_of_erased (h : refusal? t = none) (herased : isErased t = true) :
    surveyed.outline t = [] := by
  rw [View.outline_eq, if_pos (by simp [surveyed, h, herased])]

/-- A tree that is not erased is listed with what is below it. -/
theorem outline_of_not_erased (herased : isErased t = false) :
    surveyed.outline t = t :: surveyed.outlineFirst (surveyed.shown t) t.children := by
  rw [View.outline_eq, if_neg (by simp [surveyed, herased])]

/-- A tree that is refused is listed, even if it is erased. -/
theorem outline_of_refused (h : refusal? t ≠ none) :
    surveyed.outline t = t :: surveyed.outlineFirst (surveyed.shown t) t.children := by
  rw [View.outline_eq, if_neg (by simp [surveyed, h])]

/-- At a tree that is refused, the survey fails. -/
theorem answers_refused {c : Construct} (h : refusal? t = some c) :
    Answers (surveyed.outline t) (.error ⟨c, t.span.start⟩) := by
  rw [outline_of_refused (by simp [h])]
  exact .of_error (by rw [List.findSome?_cons, refused?, h]; rfl)

/-- An import statement is listed alone, unless it is blanked as a whole. -/
theorem answers_surveyImport (hkind : t.kind = .importStatement) :
    Answers (surveyed.outline t) (surveyImport t) := by
  have hshown : surveyed.shown t = 0 := by simp [surveyed, hkind]
  have hrefusal : refusal? t =
      if t.hasChild .importRequireClause then some .importRequire else none := by
    simp [refusal?, hkind]
  have herased : isErased t = isMarked t := by
    simp [isErased, hkind, isTypeOnly, isTypeDeclaration]
  unfold surveyImport
  split
  · rename_i hrequire
    exact answers_refused (by rw [hrefusal, if_pos hrequire])
  · rename_i hrequire
    rw [if_neg hrequire] at hrefusal
    have hrefused : refused? t = none := by rw [refused?, hrefusal, Option.map_none]
    split
    · rename_i hmarked
      rw [outline_of_erased hrefusal (herased.trans hmarked)]
      exact .of_ok rfl rfl
    · rename_i hmarked
      rw [outline_of_not_erased (herased.trans (Bool.eq_false_iff.mpr hmarked)), hshown,
        View.outlineFirst_zero]
      have hnames : names [t] = [] := by simp [names, isName, hkind]
      have hnone : [t].findSome? refused? = none := by simp [hrefused]
      split
      · exact .of_ok hnone hnames.symm
      · exact .of_ok hnone hnames.symm

section

variable (ih : ∀ t ∈ ts, ∀ export? next?,
  Answers (surveyed.outline t) (survey source export? next? t))

include ih

/-- Surveying all trees answers for all that the outline lists of them. -/
theorem answers_surveyAll :
    Answers (surveyed.outlineFirst ts.length ts) (surveyAll source export? ts) := by
  induction ts with
  | nil => exact .of_ok rfl rfl
  | cons t ts ihs =>
    rw [surveyAll, List.length_cons, View.outlineFirst_succ]
    exact (ih t List.mem_cons_self _ _).append
      (ihs fun u hu => ih u (List.mem_cons_of_mem _ hu))

/-- Surveying the first tree answers for what the outline lists of it. -/
theorem answers_surveyFirst :
    Answers (surveyed.outlineFirst 1 ts) (surveyFirst source ts) := by
  cases ts with
  | nil => exact .of_ok rfl rfl
  | cons t ts =>
    rw [surveyFirst, View.outlineFirst_succ, View.outlineFirst_zero, List.append_nil]
    exact ih t List.mem_cons_self _ _

end

/-- A name is a token. -/
theorem isToken_of_isName (h : isName t = true) : t.kind.isToken = true := by
  simp only [isName, Bool.or_eq_true, beq_iff_eq] at h
  rcases h with hkind | hkind <;> rw [hkind] <;> rfl

/-- When the surveys of the parts of a tree answer for them, the survey of the tree does for it. -/
theorem answers_of_parts (hmade : t.Made)
    (ih : ∀ u ∈ t.children, ∀ export? next?,
      Answers (surveyed.outline u) (survey source export? next? u)) :
    Answers (surveyed.outline t) (survey source export? next? t) := by
  have hfits := fits_actionAt source export? next? t
  rw [survey_eq]
  cases haction : actionAt source export? next? t <;> rw [haction] at hfits
  case refuse c => exact answers_refused hfits
  case record f =>
    obtain ⟨hrefusal, ⟨herased, hused⟩ | ⟨herased, hname, hused⟩⟩ := hfits
    · rw [outline_of_erased hrefusal herased]
      exact .of_ok rfl hused
    · rw [outline_of_not_erased herased, hmade.children_eq_nil (isToken_of_isName hname),
        View.outlineFirst_nil]
      refine .of_ok (by simp [refused?, hrefusal]) ?_
      rw [hused, names, List.filter_cons_of_pos hname]
      rfl
  case descend f =>
    obtain ⟨hrefusal, herased, hname, hused, hshown⟩ := hfits
    rw [outline_of_not_erased herased, hshown]
    exact .cons hrefusal hname hused (answers_surveyAll ih)
  case descendFirst f =>
    obtain ⟨hrefusal, herased, hname, hused, hshown⟩ := hfits
    rw [outline_of_not_erased herased, hshown]
    exact .cons hrefusal hname hused (answers_surveyFirst ih)
  case importStatement => exact answers_surveyImport hfits

/-- A survey fails for the first tree of the outline that is refused, and else finds the names
there. -/
theorem answers_survey (hmade : t.Made) :
    Answers (surveyed.outline t) (survey source export? next? t) := by
  induction hmade generalizing export? next? with
  | leaf hkind hvisible => exact answers_of_parts (.leaf hkind hvisible) nofun
  | node hkind hchildren hworded ih =>
    exact answers_of_parts (.node hkind hchildren hworded) fun u hu _ _ => ih u hu

/-- The first of some trees that is refused, and for which construct. -/
def IsFirstRefused (ts : List Tree) (t : Tree) (c : Construct) : Prop :=
  ∃ front back, ts = front ++ t :: back ∧ (∀ u ∈ front, refusal? u = none) ∧ refusal? t = some c

/-- A survey says something of a tree just when it is refused. -/
theorem refused?_eq_none : refused? t = none ↔ refusal? t = none := Option.map_eq_none_iff

/-- A survey fails exactly for the first tree of the outline that is refused. -/
theorem survey_eq_error_iff (hmade : t.Made) {u : Unsupported} :
    survey source export? next? t = .error u ↔
      ∃ w c, IsFirstRefused (surveyed.outline t) w c ∧ u = ⟨c, w.span.start⟩ := by
  have hanswers : Answers (surveyed.outline t) (survey source export? next? t) :=
    answers_survey hmade
  constructor
  · intro h
    obtain ⟨front, w, back, hlist, hw, hfront⟩ :=
      List.findSome?_eq_some_iff.mp (hanswers.fault u h)
    obtain ⟨c, hc, rfl⟩ := Option.map_eq_some_iff.mp hw
    exact ⟨w, c, ⟨front, back, hlist, fun v hv => refused?_eq_none.mp (hfront v hv), hc⟩, rfl⟩
  · rintro ⟨w, c, ⟨front, back, hlist, hfront, hc⟩, rfl⟩
    have hsome : (surveyed.outline t).findSome? refused? = some ⟨c, w.span.start⟩ :=
      List.findSome?_eq_some_iff.mpr ⟨front, w, back, hlist, by rw [refused?, hc]; rfl,
        fun v hv => refused?_eq_none.mpr (hfront v hv)⟩
    cases hsurvey : survey source export? next? t with
    | error u => rw [Option.some.inj ((hanswers.fault u hsurvey).symm.trans hsome)]
    | ok f => cases (hanswers.used f hsurvey).1.symm.trans hsome

end Strip

open Strip Text

/-- A refusal tells the first tree of an outline that is refused, and the line and column where it
starts, both counted from one. -/
def Reports (v : View) (source : String) (path p : Path) (at_ : Position) (text : String) : Prop :=
  ∃ tree t c, Grammar.parse? (.ofPath path) source = some tree ∧
    IsFirstRefused (v.outline tree) t c ∧ p = path ∧ text = c.text ∧
      at_.line = (before t.span.start source.toList).count '\n' + 1 ∧
      at_.column = ((before t.span.start source.toList).rtakeWhile (· != '\n')).length + 1

/-- A program is refused exactly when its outline holds a tree that is refused, and the first such
tree is reported, by its construct and by the line and column where it starts. -/
theorem stripTypes_unsupported_iff (source : String) (path p : Path) (options : TransformOptions)
    (at_ : Position) (text : String) :
    stripTypes source path options = .error (.unsupported p at_ text) ↔
      Reports surveyed source path p at_ text := by
  rw [stripTypes_eq, Reports]
  cases hparse : Grammar.parse? (.ofPath path) source with
  | none => simp
  | some tree =>
    have hmade := Grammar.made_of_parse? hparse
    constructor
    · intro h
      dsimp only at h
      split at h
      · rename_i u hsurvey
        obtain ⟨t, c, hfirst, rfl⟩ := (survey_eq_error_iff hmade).mp hsurvey
        obtain ⟨rfl, rfl, rfl⟩ := TransformFault.unsupported.inj (Except.error.inj h)
        exact ⟨tree, t, c, rfl, hfirst, rfl, rfl, by rw [positionAt_eq], by rw [positionAt_eq]⟩
      · cases h
    · rintro ⟨_, t, c, htree, hfirst, rfl, rfl, hline, hcolumn⟩
      obtain rfl := Option.some.inj htree
      have hsurvey : survey source.toList none none tree = .error ⟨c, t.span.start⟩ :=
        (survey_eq_error_iff hmade).mpr ⟨t, c, hfirst, rfl⟩
      have hat : at_ = positionAt t.span.start source.toList := by
        rw [positionAt_eq, ← hline, ← hcolumn]
      dsimp only
      rw [hsurvey, hat]

/-- A program may be refused for a tree that blanking it whole would leave nothing of. -/
theorem not_forall_unsupported_iff :
    ¬ ∀ (source : String) (path p : Path) (options : TransformOptions) (at_ : Position)
      (text : String), stripTypes source path options = .error (.unsupported p at_ text) ↔
        Reports remaining source path p at_ text := by
  intro h
  have hrefused : stripTypes "import type fs = require('fs');" ⟨"a.ts"⟩ {} =
      .error (.unsupported ⟨"a.ts"⟩ ⟨1, 1⟩ "import = require()") := by
    rw [stripTypes_eq]
    decide +kernel
  obtain ⟨tree, t, c, hparse, ⟨front, back, hlist, -, hc⟩, -⟩ := (h _ _ _ _ _ _).mp hrefused
  have hnone : (Grammar.parse? (.ofPath ⟨"a.ts"⟩) "import type fs = require('fs');").all
      (fun tree => (remaining.outline tree).all fun t => (refusal? t).isNone) = true := by
    decide +kernel
  rw [hparse, Option.all_some, hlist, List.all_append, List.all_cons, hc] at hnone
  simp at hnone

end ScriptModules

import ScriptModules.Proofs.Strip.Outline
import ScriptModules.Proofs.Strip.Reach

/-!
# Import statements in the open

An import statement stands in the open when neither syntax that is blanked as a whole is around it
nor another import statement. A survey looks at each of them, and nothing else that it finds touches
them: the ranges and the parentheses that move stay outside.
-/

namespace ScriptModules.Strip

open Grammar (Forest Kind Ordered Span Tree)

variable {preserve : Bool} {used : List String} {source : List Char} {export? : Option Span}
  {next? : Option Tree} {t u v w : Tree} {ts : Forest} {f g : Findings} {r : Span}

/-- What is left of a program besides the trees that are blanked as a whole, up to its import
statements. -/
def inTheOpen : View where
  leavesOut := remaining.leavesOut
  shown := surveyed.shown

namespace View

/-- The outlines of some trees list what the outline of one of the first of them lists. -/
theorem mem_outlineFirst (x : View) (n : Nat) (ts : List Tree) :
    u ∈ x.outlineFirst n ts ↔ ∃ v ∈ ts.take n, u ∈ x.outline v := by
  induction ts generalizing n with
  | nil => simp
  | cons t ts ih =>
    cases n with
    | zero => simp
    | succ n => simp [ih]

/-- An outline lists a tree that it does not leave out, and what is listed below it. -/
theorem mem_outline (x : View) (t : Tree) :
    u ∈ x.outline t ↔ x.leavesOut t = false ∧
      (u = t ∨ ∃ v ∈ t.children.take (x.shown t), u ∈ x.outline v) := by
  rw [outline_eq]
  cases x.leavesOut t <;> simp [mem_outlineFirst]

/-- An outline lists trees of the program. -/
theorem mem_preorder_of_mem_outline {x : View} (hmade : t.Made) (h : u ∈ x.outline t) :
    u ∈ t.preorder := by
  induction hmade with
  | leaf =>
    obtain ⟨-, rfl | ⟨v, hv, -⟩⟩ := (x.mem_outline _).mp h
    · exact Tree.mem_preorder_iff.mpr (.inl rfl)
    · simp [Tree.children] at hv
  | node _ _ _ ih =>
    obtain ⟨-, rfl | ⟨v, hv, hu⟩⟩ := (x.mem_outline _).mp h
    · exact Tree.mem_preorder_iff.mpr (.inl rfl)
    · have hmem := List.mem_of_mem_take hv
      exact Tree.mem_preorder_iff.mpr (.inr ⟨v, hmem, ih v hmem hu⟩)

/-- No tree in an outline is left out. -/
theorem leavesOut_of_mem_outline {x : View} (hmade : t.Made) (h : u ∈ x.outline t) :
    x.leavesOut u = false := by
  induction hmade with
  | leaf =>
    obtain ⟨hleft, rfl | ⟨v, hv, -⟩⟩ := (x.mem_outline _).mp h
    · exact hleft
    · simp [Tree.children] at hv
  | node _ _ _ ih =>
    obtain ⟨hleft, rfl | ⟨v, hv, hu⟩⟩ := (x.mem_outline _).mp h
    · exact hleft
    · exact ih v (List.mem_of_mem_take hv) hu

end View

/-- A range and a tree are apart. -/
def Apart (r : Span) (t : Tree) : Prop := r.stop ≤ t.span.start ∨ t.span.stop ≤ r.start

/-- What is apart from a tree is apart from what is in it. -/
theorem Apart.inside (h : Apart r t) (h' : Within u.span t) : Apart r u := by
  obtain ⟨hstart, hstop⟩ := h'
  unfold Apart at h ⊢
  omega

/-- What lies within another tree is apart from a tree that the other is apart from. -/
theorem Apart.of_within (h : Apart w.span t) (h' : Within r w) : Apart r t := by
  obtain ⟨hstart, hstop⟩ := h'
  unfold Apart at h ⊢
  omega

/-- Of an import statement, only what was found there is taken. -/
structure Spared (preserve : Bool) (used : List String) (f g : Findings) (t : Tree) : Prop where
  subset : g.rangesFor preserve used ⊆ f.rangesFor preserve used
  ranges : ∀ r ∈ f.rangesFor preserve used, r ∈ g.rangesFor preserve used ∨ Apart r t
  moved : ∀ m ∈ f.moved, t.span.holds m.offset = false

/-- In a token, an outline lists the token alone. -/
theorem eq_of_mem_outline {x : View} (hmade : t.Made) (htoken : t.kind.isToken = true)
    (h : u ∈ x.outline t) : u = t := by
  obtain ⟨-, rfl | ⟨v, hv, -⟩⟩ := (x.mem_outline t).mp h
  · rfl
  · rw [hmade.children_eq_nil htoken, List.take_nil] at hv
    cases hv

/-- The parts of a modifier are tokens. -/
theorem isToken_of_isModifier (hmade : t.Made) (hkind : isModifier t.kind = true)
    (hu : u ∈ t.children) : u.kind.isToken = true := by
  by_contra htoken
  have hmem (hloose : u.kind.isLoose = false) : u.kind ∈ Forest.kinds t.children :=
    List.mem_filter.mpr ⟨List.mem_map_of_mem hu, by simp [hloose]⟩
  have hloose : u.kind.isLoose = false := by
    cases hk : u.kind <;> first | rfl | simp [hk, Kind.isToken] at htoken
  have hwords : ∀ k ∈ Forest.kinds t.children, k.isToken = true := by
    unfold isModifier at hkind
    split at hkind
    · rename_i text hmark
      rw [hmade.children_eq_nil (by rw [hmark]; rfl)]
      nofun
    · rename_i haccess
      have hshape : (Grammar.Shape.alt (.one (.mark "public"))
          (.alt (.one (.mark "private")) (.one (.mark "protected")))).Matches
          (Forest.kinds t.children) := hmade.wording (haccess ▸ rfl)
      simp only [Grammar.Shape.matches_alt_iff, Grammar.Shape.matches_one_iff] at hshape
      rcases hshape with h | h | h <;> rw [h] <;> decide
    · rename_i hover
      have hshape : (Grammar.Shape.one (.mark "override")).Matches
          (Forest.kinds t.children) := hmade.wording (hover ▸ rfl)
      rw [Grammar.Shape.matches_one_iff] at hshape
      rw [hshape]
      decide
    · cases hkind
  exact htoken (hwords _ (hmem hloose))

section

variable (hmade : v.Made) (hu : u ∈ inTheOpen.outline v) (hkind : u.kind = .importStatement)

include hmade hu hkind

/-- No import statement stands in a token. -/
theorem isToken_eq_false_of_mem : v.kind.isToken = false := by
  rw [Bool.eq_false_iff]
  intro htoken
  rw [← eq_of_mem_outline hmade htoken hu, hkind] at htoken
  cases htoken

/-- No import statement stands in a modifier. -/
theorem isModifier_eq_false_of_mem : isModifier v.kind = false := by
  rw [Bool.eq_false_iff]
  intro hmodifier
  obtain ⟨-, rfl | ⟨w, hw, hu⟩⟩ := (inTheOpen.mem_outline v).mp hu
  · rw [hkind] at hmodifier
    cases hmodifier
  · have hmem := List.mem_of_mem_take hw
    have htoken := isToken_of_isModifier hmade hmodifier hmem
    rw [isToken_eq_false_of_mem (hmade.of_mem hmem) hu hkind] at htoken
    cases htoken

end

/-- An import statement stands in no type, and in none of its parts. -/
theorem isErased_eq_false_of_mem (hu : u ∈ inTheOpen.outline v) : isErased v = false := by
  obtain ⟨hleft, -⟩ := (inTheOpen.mem_outline v).mp hu
  exact (Bool.or_eq_false_iff.mp hleft).1

section

variable (hstands : t.Stands source) (hmade : t.Made)
  (hv : v ∈ t.children.take (inTheOpen.shown t)) (hu : u ∈ inTheOpen.outline v)
  (hkind : u.kind = .importStatement)

include hstands hmade hu

/-- An import statement lies within the tree where it stands. -/
theorem within_of_mem_outline (hmem : v ∈ t.children) : Within u.span v :=
  (stands_of_mem_preorder (hstands.of_mem hmem)
    (View.mem_preorder_of_mem_outline (hmade.of_mem hmem) hu)).2

include hv

/-- What stands beside a tree is apart from what is inside it. -/
theorem apart_of_ne (hw : w ∈ t.children) (hne : v ≠ w) : Apart w.span u := by
  have hmem := List.mem_of_mem_take hv
  refine Apart.inside ?_ (within_of_mem_outline hstands hmade hu hmem)
  exact (hstands.ordered.apart hmem hw hne).symm

/-- The parenthesis that an arrow function moves goes to its result, where no import statement
is. -/
theorem holds_of_surveyReturnType (harrow : t.kind = .arrow)
    {m : Moved} (hm : m ∈ (surveyReturnType source t).moved) : u.span.holds m.offset = false := by
  rcases surveyReturnType_cases hstands harrow with hnone | ⟨move, rfl, hfits, hfound⟩
  · rw [hnone] at hm
    cases hm
  · rw [hfound] at hm
    obtain rfl := List.mem_singleton.mp hm
    obtain ⟨result, hresult, hholds, -⟩ := hfits.target
    obtain ⟨hmem, hresultKind⟩ := mem_of_result? hresult
    have hne : v ≠ result := by
      rintro rfl
      have herased := isErased_eq_false_of_mem hu
      simp [isErased, isTypeOnly_of_isResult hresultKind] at herased
    have hapart := apart_of_ne hstands hmade hv hu hmem hne
    simp only [Span.holds, Bool.and_eq_true, decide_eq_true_eq, Apart, Bool.and_eq_false_iff,
      decide_eq_false_iff_not] at hholds hapart ⊢
    omega

include hkind

/-- The mark that closes parameters is apart from what is inside them. -/
theorem apart_of_close {origin : Nat} (hparameters : v.kind = .parameters)
    (hstop : v.span.stop = origin + 1) : Apart ⟨origin, origin + 1⟩ u := by
  have hmem := List.mem_of_mem_take hv
  have hstands' := hstands.of_mem hmem
  have hmade' := hmade.of_mem hmem
  obtain ⟨origin', -, hstop', -, front, close, hchildren, hclose, hstart⟩ :=
    close_of_parameters hstands' hparameters
  obtain ⟨-, rfl | ⟨x, hx, hu⟩⟩ := (inTheOpen.mem_outline v).mp hu
  · rw [hkind] at hparameters
    cases hparameters
  · have hxmem := List.mem_of_mem_take hx
    have hordered := hstands'.ordered
    have hwithin := within_of_mem_outline hstands' hmade' hu hxmem
    rw [hchildren] at hxmem hordered
    rcases List.mem_append.mp hxmem with hfront | hlast
    · obtain ⟨before, between, rfl⟩ := List.append_of_mem hfront
      rw [List.append_assoc, List.cons_append] at hordered
      have hle := hordered.le_of_append (u := close) (by simp)
      obtain ⟨-, hwithin⟩ := hwithin
      exact .inr (by dsimp only; omega)
    · -- the mark itself is no import statement, since it has no parts
      obtain rfl := List.mem_singleton.mp hlast
      obtain ⟨-, rfl | ⟨y, hy, -⟩⟩ := (inTheOpen.mem_outline _).mp hu
      · obtain ⟨y, hy, -⟩ := (hmade'.of_mem (List.mem_of_mem_take hx)).exists_opening
          (k := .mark "import") (by rw [hkind]; rfl)
        rw [hclose] at hy
        cases hy
      · rw [hclose, List.take_nil] at hy
        cases hy

/-- The ranges that take parts of a tree are apart from the import statements inside it. -/
theorem apart_of_takesParts (h : TakesParts source t r) : Apart r u := by
  have hmem := List.mem_of_mem_take hv
  have hmodifier := isModifier_eq_false_of_mem (hmade.of_mem hmem) hu hkind
  have hne {w : Tree} (hw : isModifier w.kind = true) : v ≠ w := by
    rintro rfl
    rw [hmodifier] at hw
    cases hw
  rcases h with ⟨w, hw, hwmodifier, rfl | ⟨hcast, rfl⟩⟩ | ⟨harrow, hr⟩
  · exact apart_of_ne hstands hmade hv hu hw (hne hwmodifier)
  · have hshown : inTheOpen.shown t = 1 := by
      rcases hcast with hcast | hcast <;> simp [inTheOpen, surveyed, hcast]
    rw [hshown] at hv
    have hordered := hstands.ordered
    have hwithin := within_of_mem_outline hstands hmade hu hmem
    cases hchildren : t.children with
    | nil =>
      rw [hchildren] at hw
      cases hw
    | cons first rest =>
      rw [hchildren] at hv hw hordered
      obtain rfl : v = first := by simpa using hv
      have hrest := (List.mem_cons.mp hw).resolve_left fun heq => hne hwmodifier heq.symm
      have hle := (hordered.2.2.of_mem hrest).1
      obtain ⟨-, hwithin⟩ := hwithin
      exact .inr (by dsimp only; omega)
  · rcases surveyReturnType_cases hstands harrow with hnone | ⟨m, rfl, hfits, hfound⟩
    · rw [hnone] at hr
      cases hr
    · rw [hfound] at hr
      obtain rfl := List.mem_singleton.mp hr
      obtain ⟨parameters, hparameters, hholds, hstop⟩ := hfits.origin
      obtain ⟨hpmem, hpkind⟩ := mem_of_child? hparameters
      by_cases heq : v = parameters
      · subst heq
        exact apart_of_close hstands hmade hv hu hkind hpkind hstop
      · refine (apart_of_ne hstands hmade hv hu hpmem heq).of_within ⟨?_, hstop.ge⟩
        simp only [Span.holds, Bool.and_eq_true, decide_eq_true_eq] at hholds
        exact hholds.1

end

/-- A survey of a part of a tree, as it is made on the way through the tree. -/
structure IsPart (source : List Char) (t v : Tree) (next? : Option Tree) (g : Findings) :
    Prop where
  mem : (v, next?) ∈ withNext t.children
  survey : ∃ export?, (∀ e ∈ export?, t.kind = .exportStatement ∧ e = t.span) ∧
    survey source export? next? v = .ok g

/-- Findings that come from the parts of a tree, all of those that a survey looks at. -/
structure Below (preserve : Bool) (used : List String) (source : List Char) (t : Tree)
    (f : Findings) : Prop where
  parts : ∀ v ∈ t.children.take (surveyed.shown t), ∃ next? g, IsPart source t v next? g ∧
    g.rangesFor preserve used ⊆ f.rangesFor preserve used
  ranges : ∀ r ∈ f.rangesFor preserve used, ∃ v next? g, IsPart source t v next? g ∧
    r ∈ g.rangesFor preserve used
  moved : ∀ m ∈ f.moved, ∃ v next? g, IsPart source t v next? g ∧ m ∈ g.moved

/-- A parenthesis that moves in some trees moves in one of them. -/
theorem exists_moved_of_surveyAll (h : surveyAll source export? ts = .ok f) {m : Moved}
    (hm : m ∈ f.moved) : ∃ v next? g, (v, next?) ∈ withNext ts ∧
      survey source export? next? v = .ok g ∧ m ∈ g.moved := by
  induction ts generalizing f with
  | nil =>
    obtain rfl := Except.ok.inj h
    cases hm
  | cons t ts ih =>
    obtain ⟨found, hfound, h⟩ := exists_of_bind_eq_ok h
    obtain ⟨more, hmore, h⟩ := exists_of_bind_eq_ok h
    obtain rfl := Except.ok.inj h
    rw [Findings.moved_append] at hm
    rcases List.mem_append.mp hm with hm | hm
    · exact ⟨t, _, found, List.mem_cons_self, hfound, hm⟩
    · obtain ⟨v, next?, g, hmem, hg, hm⟩ := ih hmore hm
      exact ⟨v, next?, g, List.mem_cons_of_mem _ hmem, hg, hm⟩

/-- What is found in all parts of a tree is found below it. -/
theorem below_of_surveyAll (h : surveyAll source (exportRange? t) t.children = .ok f) :
    Below preserve used source t f := by
  have hexport : ∀ e ∈ exportRange? t, t.kind = .exportStatement ∧ e = t.span := by
    intro e he
    unfold exportRange? at he
    split at he
    · exact ⟨beq_iff_eq.mp ‹_›, (Option.some.inj he).symm⟩
    · cases he
  refine ⟨fun v hv => ?_, fun r hr => ?_, fun m hm => ?_⟩
  · obtain ⟨next?, hmem⟩ := exists_mem_withNext (List.mem_of_mem_take hv)
    obtain ⟨g, hg, hsub⟩ := exists_survey_of_mem_withNext preserve used h hmem
    exact ⟨next?, g, ⟨hmem, _, hexport, hg⟩, hsub⟩
  · obtain ⟨v, next?, g, hmem, hg, hr, -⟩ := exists_survey_of_surveyAll h hr
    exact ⟨v, next?, g, ⟨hmem, _, hexport, hg⟩, hr⟩
  · obtain ⟨v, next?, g, hmem, hg, hm⟩ := exists_moved_of_surveyAll h hm
    exact ⟨v, next?, g, ⟨hmem, _, hexport, hg⟩, hm⟩

/-- What is found in the first part is found below a tree that is looked into no further. -/
theorem below_of_surveyFirst (hshown : surveyed.shown t = 1)
    (h : surveyFirst source t.children = .ok f) : Below preserve used source t f := by
  cases hchildren : t.children with
  | nil =>
    rw [hchildren] at h
    obtain rfl := Except.ok.inj h
    exact ⟨by simp [hchildren], nofun, nofun⟩
  | cons v rest =>
    rw [hchildren] at h
    have hpart : IsPart source t v rest.head? f :=
      ⟨by rw [hchildren]; exact List.mem_cons_self, none, nofun, h⟩
    refine ⟨fun w hw => ?_, fun r hr => ⟨v, _, f, hpart, hr⟩, fun m hm => ⟨v, _, f, hpart, hm⟩⟩
    obtain rfl : w = v := by simpa [hchildren, hshown] using hw
    exact ⟨_, f, hpart, List.Subset.refl _⟩

section

variable (hstands : t.Stands source) (hmade : t.Made) (hexport : exportsType t = false)
  (hv : v ∈ t.children.take (inTheOpen.shown t)) (hu : u ∈ inTheOpen.outline v)
  (hkind : u.kind = .importStatement)

include hstands hmade hv hu

/-- The parentheses that move inside a part of a tree stay there. -/
theorem holds_of_isPart (h : IsPart source t w next? g) (hne : v ≠ w) {m : Moved}
    (hm : m ∈ g.moved) : u.span.holds m.offset = false := by
  have hw := mem_of_mem_withNext h.mem
  obtain ⟨export?, -, hsurvey⟩ := h.survey
  obtain ⟨moves, hmoves⟩ := exists_moves_of_survey (hstands.of_mem hw) hsurvey
  rw [hmoves.moved] at hm
  obtain ⟨move, hmove, rfl⟩ := List.mem_map.mp hm
  obtain ⟨x, hx, hchange⟩ := hmoves.within move.target
    (List.mem_flatMap.mpr ⟨move, hmove, by simp [Move.offsets]⟩)
  obtain rfl := List.mem_singleton.mp hx
  have hapart := apart_of_ne hstands hmade hv hu hw hne
  have hholds := hchange.holds
  simp only [Span.holds, Bool.and_eq_true, decide_eq_true_eq, Apart, Bool.and_eq_false_iff,
    decide_eq_false_iff_not] at hholds hapart ⊢
  omega

include hexport hkind

/-- The ranges that are found in a part of a tree are apart from the import statements in the
others. -/
theorem apart_of_isPart (h : IsPart source t w next? g) (hne : v ≠ w)
    (hr : r ∈ g.rangesFor preserve used) : Apart r u := by
  have hw := mem_of_mem_withNext h.mem
  obtain ⟨export?, haround, hsurvey⟩ := h.survey
  rcases reaches_of_survey (hstands.of_mem hw) hsurvey hr with
    ⟨htype, he⟩ | hwithin | ⟨next, hnext, hmodifier, rfl⟩
  · -- no declaration of types is exported here
    have hdeclares : exportsType t = true := by
      rw [exportsType, (haround r he).1, Bool.and_eq_true, List.any_eq_true]
      exact ⟨rfl, w, hw, htype⟩
    rw [hexport] at hdeclares
    cases hdeclares
  · exact (apart_of_ne hstands hmade hv hu hw hne).of_within hwithin
  · have hmem := List.mem_of_mem_take hv
    have hnextmem := next_mem_of_mem_withNext h.mem hnext
    have hne' : v ≠ next := by
      rintro rfl
      rw [isModifier_eq_false_of_mem (hmade.of_mem hmem) hu hkind] at hmodifier
      cases hmodifier
    obtain ⟨hwstart, hwstop⟩ := within_of_mem_outline hstands hmade hu hmem
    obtain ⟨front, back, hchildren, rfl⟩ := mem_withNext.mp h.mem
    obtain ⟨rest, rfl⟩ : ∃ rest, back = next :: rest := List.head?_eq_some_iff.mp hnext
    have hordered := hstands.ordered
    rw [hchildren] at hmem hordered
    rcases List.mem_append.mp hmem with hfront | hback
    · obtain ⟨before, between, rfl⟩ := List.append_of_mem hfront
      rw [List.append_assoc, List.cons_append] at hordered
      have hle := hordered.le_of_append (u := w) (by simp)
      exact .inr (by dsimp only; omega)
    · have hrest : v ∈ rest := by
        rcases List.mem_cons.mp hback with rfl | hback
        · exact absurd rfl hne
        · exact (List.mem_cons.mp hback).resolve_left hne'
      rw [List.append_cons] at hordered
      have hle := hordered.le_of_append (t := next) hrest
      exact .inl (by dsimp only; omega)

end

/-- Only an arrow function moves anything itself, and what it moves is its parenthesis. -/
theorem arrow_or_moved_eq_nil {found : Findings}
    (h : (actionAt source export? next? t).findings = found) :
    t.kind = .arrow ∧ found = surveyReturnType source t ∨ found.moved = [] := by
  by_cases harrow : t.kind = .arrow
  · rw [actionAt_of_arrow harrow] at h
    exact .inl ⟨harrow, h.symm⟩
  · exact .inr (h ▸ moved_actionAt harrow)

section

variable (hstands : t.Stands source) (hmade : t.Made) (hkind : u.kind = .importStatement)
  (ih : ∀ v ∈ t.children, ∀ export? next? g, survey source export? next? v = .ok g →
    u ∈ inTheOpen.outline v → ∃ g', surveyImport u = .ok g' ∧ Spared preserve used g g' u)

include hstands hmade hkind ih

/-- An import statement in a part of a tree is spared by what is found at the tree itself and by
what is found in the other parts. -/
theorem spared_of_below {found rest : Findings} (hexport : exportsType t = false)
    (hv : v ∈ t.children.take (inTheOpen.shown t)) (hu : u ∈ inTheOpen.outline v)
    (himports : found.imports = []) (htakes : ∀ r ∈ found.blanks, TakesParts source t r)
    (hmoved : t.kind = .arrow ∧ found = surveyReturnType source t ∨ found.moved = [])
    (hbelow : Below preserve used source t rest) :
    ∃ g, surveyImport u = .ok g ∧ Spared preserve used (found ++ rest) g u := by
  have hmem := List.mem_of_mem_take hv
  obtain ⟨next?, gv, hpart, hsub⟩ := hbelow.parts v hv
  obtain ⟨_, -, hsurvey⟩ := hpart.survey
  obtain ⟨g, hg, hspared⟩ := ih v hmem _ _ _ hsurvey hu
  refine ⟨g, hg, fun r hr => mem_rangesFor_append.mpr (.inr (hsub (hspared.subset hr))),
    fun r hr => ?_, fun m hm => ?_⟩
  · rcases mem_rangesFor_append.mp hr with hr | hr
    · rw [rangesFor_of_imports himports] at hr
      exact .inr (apart_of_takesParts hstands hmade hv hu hkind (htakes r hr))
    · obtain ⟨w, next?, gw, hpart, hr⟩ := hbelow.ranges r hr
      by_cases hne : v = w
      · subst hne
        obtain ⟨_, -, hsurvey⟩ := hpart.survey
        obtain ⟨g', hg', hspared'⟩ := ih v hmem _ _ _ hsurvey hu
        obtain rfl := Except.ok.inj (hg.symm.trans hg')
        exact hspared'.ranges r hr
      · exact .inr (apart_of_isPart hstands hmade hexport hv hu hkind hpart hne hr)
  · rw [Findings.moved_append] at hm
    rcases List.mem_append.mp hm with hm | hm
    · rcases hmoved with ⟨harrow, rfl⟩ | hnone
      · exact holds_of_surveyReturnType hstands hmade hv hu harrow hm
      · rw [hnone] at hm
        cases hm
    · obtain ⟨w, next?, gw, hpart, hm⟩ := hbelow.moved m hm
      by_cases hne : v = w
      · subst hne
        obtain ⟨_, -, hsurvey⟩ := hpart.survey
        obtain ⟨g', -, hspared'⟩ := ih v hmem _ _ _ hsurvey hu
        exact hspared'.moved m hm
      · exact holds_of_isPart hstands hmade hv hu hpart hne hm

/-- When the surveys of the parts of a tree spare an import statement in the open, the survey of the
tree spares it. -/
theorem spared_of_parts (h : survey source export? next? t = .ok f)
    (hu : u ∈ inTheOpen.outline t) :
    ∃ g, surveyImport u = .ok g ∧ Spared preserve used f g u := by
  obtain ⟨hleft, rfl | ⟨v, hv, huv⟩⟩ := (inTheOpen.mem_outline t).mp hu
  · rcases survey_cases h with haction | ⟨-, himport⟩ | ⟨_, _, haction, -⟩ | ⟨_, _, haction, -⟩
    case inr.inl =>
      refine ⟨f, himport, List.Subset.refl _, fun r hr => .inl hr, ?_⟩
      rw [moved_surveyImport himport]
      nofun
    all_goals
      rw [actionAt_of_importStatement hkind] at haction
      cases haction
  obtain ⟨herased, hexport⟩ := Bool.or_eq_false_iff.mp hleft
  have hfits := fits_actionAt source export? next? t
  have htakes := takes_actionAt source export? next? t
  rcases survey_cases h with haction | ⟨haction, -⟩ | ⟨found, rest, haction, hrest, rfl⟩ |
    ⟨found, rest, haction, hrest, rfl⟩ <;> rw [haction] at hfits htakes
  · obtain ⟨-, ⟨herased', -⟩ | ⟨-, hname, -⟩⟩ := hfits
    · rw [herased] at herased'
      cases herased'
    · rw [hmade.children_eq_nil (isToken_of_isName hname), List.take_nil] at hv
      cases hv
  · have hshown : inTheOpen.shown t = 0 := by
      have himport : t.kind = .importStatement := hfits
      simp [inTheOpen, surveyed, himport]
    rw [hshown, List.take_zero] at hv
    cases hv
  · exact spared_of_below hstands hmade hkind ih hexport hv huv htakes.1 htakes.2
      (arrow_or_moved_eq_nil (congrArg Action.findings haction)) (below_of_surveyAll hrest)
  · obtain ⟨-, -, -, -, hshown⟩ := hfits
    exact spared_of_below hstands hmade hkind ih hexport hv huv htakes.1 htakes.2
      (arrow_or_moved_eq_nil (congrArg Action.findings haction)) (below_of_surveyFirst hshown hrest)

end

/-- A survey looks at every import statement in the open, and nothing else touches it. -/
theorem spared_of_survey (hstands : t.Stands source) (hmade : t.Made)
    (h : survey source export? next? t = .ok f) (hu : u ∈ inTheOpen.outline t)
    (hkind : u.kind = .importStatement) :
    ∃ g, surveyImport u = .ok g ∧ Spared preserve used f g u := by
  induction hstands generalizing export? next? f with
  | leaf hslice hplain hdetail =>
    exact spared_of_parts (.leaf hslice hplain hdetail) hmade hkind nofun h hu
  | node hordered hchildren hplain hdetail ih =>
    exact spared_of_parts (.node hordered hchildren hplain hdetail) hmade hkind
      (fun v hv _ _ _ hg hu => ih v hv (hmade.of_mem hv) hg hu) h hu

end ScriptModules.Strip

import ScriptModules.Proofs.Strip.Imports
import ScriptModules.Proofs.Strip.Moves

/-!
# Where ranges reach

The ranges that a survey finds in a tree stay inside the tree, but for a mark that may follow it.
So each of them covers any other construct as a whole or leaves it alone. Of most constructs, only
the ranges that were found there take a part.
-/

namespace ScriptModules.Strip

open Grammar (Forest Kind Ordered Span Tree)

variable {goes goes' : Tree → Bool} {preserve : Bool} {used : List String} {source : List Char}
  {export? : Option Span} {next? : Option Tree} {t u v w : Tree} {ts : Forest} {f g : Findings}
  {r : Span} {low high : Nat}

/-- A range lies within a tree. -/
def Within (r : Span) (t : Tree) : Prop := t.span.start ≤ r.start ∧ r.stop ≤ t.span.stop

/-- A range covers a tree. -/
def Covers (r : Span) (t : Tree) : Prop := r.start ≤ t.span.start ∧ t.span.stop ≤ r.stop

/-- A range covers a tree, or leaves it alone. -/
def Respects (r : Span) (t : Tree) : Prop :=
  Covers r t ∨ r.stop ≤ t.span.start ∨ t.span.stop ≤ r.start

/-- A tree is covered by its own range. -/
theorem covers_span (t : Tree) : Covers t.span t := ⟨Nat.le_refl _, Nat.le_refl _⟩

/-- What lies within a tree lies within every tree around it. -/
theorem Within.trans (h : Within r t) (h' : Within t.span u) : Within r u :=
  ⟨h'.1.trans h.1, h.2.trans h'.2⟩

/-- What respects a tree respects what is inside it. -/
theorem Respects.inside (h : Respects r t) (h' : Within u.span t) : Respects r u := by
  obtain ⟨hstart, hstop⟩ := h'
  unfold Respects Covers at h ⊢
  omega

/-- The children of a tree lie within it. -/
theorem within_of_mem (hordered : Ordered t.span.start t.span.stop t.children)
    (hu : u ∈ t.children) : Within u.span t :=
  ⟨(hordered.of_mem hu).1, (hordered.of_mem hu).2.2⟩

/-- A range from where a tree starts to where one stops, in a row of trees, respects them all. -/
theorem respects_row (hordered : Ordered low high ts) (hu : u ∈ ts) (hv : v ∈ ts) (hw : w ∈ ts) :
    Respects ⟨v.span.start, w.span.stop⟩ u := by
  have hstart : v.span.start ≤ u.span.start ∨ u.span.stop ≤ v.span.start := by
    by_cases hne : u = v
    · exact .inl (hne ▸ Nat.le_refl _)
    · have := (hordered.of_mem hv).2.1
      rcases hordered.apart hu hv hne with h | h <;> omega
  have hstop : u.span.stop ≤ w.span.stop ∨ w.span.stop ≤ u.span.start := by
    by_cases hne : u = w
    · exact .inl (hne ▸ Nat.le_refl _)
    · have := (hordered.of_mem hw).2.1
      rcases hordered.apart hu hw hne with h | h <;> omega
  unfold Respects Covers
  dsimp only
  omega

/-- A range from one of some trees to behind them all covers another or leaves it alone. -/
theorem respects_rest (hordered : Ordered low high ts) (hu : u ∈ ts) (hv : v ∈ ts) :
    Respects ⟨v.span.start, high⟩ u := by
  rcases respects_row hordered hu hv hu with h | h
  · exact .inl ⟨h.1, (hordered.of_mem hu).2.2⟩
  · have := (hordered.of_mem hu).2
    have := (hordered.of_mem hv).2
    unfold Respects Covers
    dsimp only at h ⊢
    omega

/-- A range within one of some trees respects the others. -/
theorem respects_of_ne (hordered : Ordered low high ts) (hu : u ∈ ts) (hv : v ∈ ts) (hne : u ≠ v)
    (h : Within r v) : Respects r u := by
  obtain ⟨hstart, hstop⟩ := h
  unfold Respects
  rcases hordered.apart hu hv hne with h | h <;> omega

/-- What is below a tree stands inside it. -/
theorem stands_of_mem_preorder (hstands : t.Stands source) (hu : u ∈ t.preorder) :
    u.Stands source ∧ Within u.span t := by
  refine ⟨hstands.of_mem_preorder hu, ?_⟩
  induction hstands with
  | leaf =>
    obtain rfl := List.mem_singleton.mp hu
    exact ⟨Nat.le_refl _, Nat.le_refl _⟩
  | node hordered _ _ _ ih =>
    rcases Tree.mem_preorder_iff.mp hu with rfl | ⟨v, hv, hu⟩
    · exact ⟨Nat.le_refl _, Nat.le_refl _⟩
    · exact (ih v hv hu).trans (within_of_mem hordered hv)

/-- A range within a part of a tree respects what is not inside that part. -/
theorem respects_below (hstands : t.Stands source) (hv : v ∈ t.children) (hr : Within r v)
    (hw : w ∈ t.children) (hu : u ∈ w.preorder) (h : u ∈ v.preorder → Respects r u) :
    Respects r u := by
  by_cases hne : w = v
  · exact h (hne ▸ hu)
  · exact (respects_of_ne hstands.ordered hw hv hne hr).inside
      (stands_of_mem_preorder (hstands.of_mem hw) hu).2

/-- Marks, and the modifiers that are made of them. -/
def isModifier : Kind → Bool
  | .mark _ | .accessibility | .overriding => true
  | _ => false

/-- A range that takes a tree as a whole: along with the export statement around a declaration that
leaves nothing behind, or with the mark that follows. -/
def TakesWhole (export? : Option Span) (next? : Option Tree) (t : Tree) (r : Span) : Prop :=
  (isTypeDeclaration t.kind = true ∧ export? = some r) ∨ r = t.span ∨
    ∃ next ∈ next?, isModifier next.kind = true ∧ r = ⟨t.span.start, next.span.stop⟩

/-- A range that takes modifiers of a tree, or the type that a value is said to have, or the mark
that closes the parameters of an arrow function. -/
def TakesParts (source : List Char) (t : Tree) (r : Span) : Prop :=
  (∃ u ∈ t.children, isModifier u.kind = true ∧ (r = u.span ∨
    (t.kind = .asExpression ∨ t.kind = .satisfiesExpression) ∧
      r = ⟨u.span.start, t.span.stop⟩)) ∨
    t.kind = .arrow ∧ r ∈ (surveyReturnType source t).blanks

/-- What an action takes from a tree. -/
def Action.Takes (source : List Char) (export? : Option Span) (next? : Option Tree) (t : Tree) :
    Action → Prop
  | .record f => f.imports = [] ∧ ∀ r ∈ f.blanks, TakesWhole export? next? t r
  | .descend f | .descendFirst f => f.imports = [] ∧ ∀ r ∈ f.blanks, TakesParts source t r
  | .refuse _ | .importStatement => True

section Takes

variable (source export? next? t)

/-- A tree that is blanked is taken as a whole. -/
theorem takes_span : (Action.record (.ofBlanks [t.span])).Takes source export? next? t :=
  ⟨rfl, List.forall_mem_singleton.mpr (.inr (.inl rfl))⟩

/-- A tree that is blanked with the mark behind it is taken as a whole. -/
theorem takes_rangeThrough (mark : String) :
    (Action.record (.ofBlanks [rangeThrough mark next? t])).Takes source export? next? t :=
  ⟨rfl, List.forall_mem_singleton.mpr (.inr ((rangeThrough_cases ..).imp_right
    fun ⟨next, hnext, hkind, heq⟩ => ⟨next, hnext, by rw [hkind]; rfl, heq⟩))⟩

/-- Modifiers that are blanked are parts of the tree. -/
theorem takes_childRanges {kinds : List Kind} (hkinds : ∀ k ∈ kinds, isModifier k = true) :
    (Action.descend (.ofBlanks (childRanges kinds t))).Takes source export? next? t := by
  refine ⟨rfl, fun r hr => ?_⟩
  obtain ⟨u, hu, rfl⟩ := List.mem_map.mp hr
  obtain ⟨hmem, hkind⟩ := List.mem_filter.mp hu
  exact .inl ⟨u, hmem, hkinds _ (List.contains_iff_mem.mp hkind), .inl rfl⟩

/-- A tree that is looked into gives nothing by itself. -/
theorem takes_nothing : (Action.descend {}).Takes source export? next? t := ⟨rfl, nofun⟩

/-- From an arrow function parts may be taken. -/
theorem takes_surveyReturnType (h : t.kind = .arrow) :
    (Action.descend (surveyReturnType source t)).Takes source export? next? t := by
  refine ⟨?_, fun r hr => .inr ⟨h, hr⟩⟩
  unfold surveyReturnType
  dsimp only
  split
  · split
    · split <;> rfl
    · rfl
  · rfl

/-- From a value with a type its type is taken. -/
theorem takes_operator (h : t.kind = .asExpression ∨ t.kind = .satisfiesExpression) :
    (Action.descendFirst (.ofBlanks ((t.children.find? fun u =>
      u.kind == .mark "as" || u.kind == .mark "satisfies").toList.map fun u =>
        ⟨u.span.start, t.span.stop⟩))).Takes source export? next? t := by
  refine ⟨rfl, fun r hr => ?_⟩
  obtain ⟨u, hu, rfl⟩ := List.mem_map.mp hr
  have hfind := Option.mem_toList.mp hu
  have hkind := List.find?_some hfind
  rw [Bool.or_eq_true, beq_iff_eq, beq_iff_eq] at hkind
  exact .inl ⟨u, List.mem_of_find?_eq_some hfind,
    by rcases hkind with hkind | hkind <;> rw [hkind] <;> rfl, .inr ⟨h, rfl⟩⟩

/-- What is taken from a tree is the whole of it or parts of it. -/
theorem takes_actionAt :
    (actionAt source export? next? t).Takes source export? next? t := by
  unfold actionAt
  dsimp only
  split
  · exact takes_span ..
  · split
    · rename_i hdeclaration
      cases export? with
      | none => exact takes_rangeThrough ..
      | some e => exact ⟨rfl, List.forall_mem_singleton.mpr (.inl ⟨hdeclaration, rfl⟩)⟩
    · split <;> try trivial
      -- what follows stands in the order of the actions
      · split
        · trivial
        · split
          · exact takes_span ..
          · exact takes_nothing ..
      · split
        · exact takes_rangeThrough ..
        · exact takes_nothing ..
      · split
        · exact takes_rangeThrough ..
        · exact takes_nothing ..
      · exact takes_operator _ _ _ _ (.inl ‹_›)
      · exact takes_operator _ _ _ _ (.inr ‹_›)
      · exact takes_childRanges _ _ _ _ (by decide)
      · exact takes_childRanges _ _ _ _ (by decide)
      · split
        · trivial
        · split
          · exact takes_rangeThrough ..
          · exact takes_childRanges _ _ _ _ (by decide)
      · split
        · trivial
        · split
          · exact takes_rangeThrough ..
          · exact takes_childRanges _ _ _ _ (by decide)
      · split
        · exact takes_rangeThrough ..
        · exact takes_childRanges _ _ _ _ (by decide)
      · exact takes_childRanges _ _ _ _ (by decide)
      · exact takes_surveyReturnType _ _ _ _ ‹_›
      · exact takes_childRanges _ _ _ _ (by decide)
      · exact ⟨rfl, nofun⟩
      · exact ⟨rfl, nofun⟩
      · exact takes_nothing ..

end Takes

/-- An import statement is surveyed as one. -/
theorem actionAt_of_importStatement (h : t.kind = .importStatement) :
    actionAt source export? next? t = .importStatement := by
  simp [actionAt, h, isTypeOnly, isTypeDeclaration]

/-- What a survey of an import statement finds is found at the statement. -/
theorem survey_of_importStatement (h : t.kind = .importStatement) :
    survey source export? next? t = surveyImport t := by
  rw [survey.eq_def, actionAt_of_importStatement h]

/-- The ranges of two findings are those of each. -/
theorem mem_rangesFor_append :
    r ∈ (f ++ g).rangesFor preserve used ↔
      r ∈ f.rangesFor preserve used ∨ r ∈ g.rangesFor preserve used := by
  have himports : (f ++ g).imports = f.imports ++ g.imports := rfl
  simp only [Findings.rangesFor, Findings.blanks_append, himports, List.flatMap_append,
    List.mem_append]
  exact or_or_or_comm

/-- Without import statements the ranges are those that are blanked. -/
theorem rangesFor_of_imports (h : f.imports = []) : f.rangesFor preserve used = f.blanks := by
  rw [Findings.rangesFor, h, List.flatMap_nil, List.append_nil]

/-- A range that was found at a part of a tree, along with all that was found there. -/
def FoundBelow (preserve : Bool) (used : List String) (source : List Char) (t : Tree)
    (f : Findings) (r : Span) : Prop :=
  ∃ u next? export? g, (u, next?) ∈ withNext t.children ∧ (∀ e ∈ export?, e = t.span) ∧
    survey source export? next? u = .ok g ∧ r ∈ g.rangesFor preserve used ∧
      g.rangesFor preserve used ⊆ f.rangesFor preserve used

/-- What is found in all of some trees is found in one of them. -/
theorem exists_survey_of_surveyAll (h : surveyAll source export? ts = .ok f)
    (hr : r ∈ f.rangesFor preserve used) :
    ∃ t next? g, (t, next?) ∈ withNext ts ∧ survey source export? next? t = .ok g ∧
      r ∈ g.rangesFor preserve used ∧
        g.rangesFor preserve used ⊆ f.rangesFor preserve used := by
  induction ts generalizing f with
  | nil =>
    obtain rfl := Except.ok.inj h
    cases hr
  | cons t ts ih =>
    obtain ⟨found, hfound, h⟩ := exists_of_bind_eq_ok h
    obtain ⟨more, hmore, h⟩ := exists_of_bind_eq_ok h
    obtain rfl := Except.ok.inj h
    rcases mem_rangesFor_append.mp hr with hr | hr
    · exact ⟨t, _, found, List.mem_cons_self, hfound, hr, fun _ h =>
        mem_rangesFor_append.mpr (.inl h)⟩
    · obtain ⟨u, next?, g, hmem, hg, hr, hsub⟩ := ih hmore hr
      exact ⟨u, next?, g, List.mem_cons_of_mem _ hmem, hg, hr, fun _ h =>
        mem_rangesFor_append.mpr (.inr (hsub h))⟩

/-- Each of some trees is surveyed, and what is found there is found in all of them. -/
theorem exists_survey_of_mem_withNext (preserve : Bool) (used : List String)
    (h : surveyAll source export? ts = .ok f) (ht : (t, next?) ∈ withNext ts) :
    ∃ g, survey source export? next? t = .ok g ∧
      g.rangesFor preserve used ⊆ f.rangesFor preserve used := by
  induction ts generalizing f with
  | nil => cases ht
  | cons u ts ih =>
    obtain ⟨found, hfound, h⟩ := exists_of_bind_eq_ok h
    obtain ⟨more, hmore, h⟩ := exists_of_bind_eq_ok h
    obtain rfl := Except.ok.inj h
    rcases List.mem_cons.mp ht with heq | ht
    · obtain ⟨rfl, rfl⟩ := Prod.mk.inj heq
      exact ⟨found, hfound, fun _ hr => mem_rangesFor_append.mpr (.inl hr)⟩
    · obtain ⟨g, hg, hsub⟩ := ih hmore ht
      exact ⟨g, hg, fun _ hr => mem_rangesFor_append.mpr (.inr (hsub hr))⟩

/-- What is found in all parts of a tree is found below it. -/
theorem foundBelow_of_surveyAll (h : surveyAll source (exportRange? t) t.children = .ok g)
    (hr : r ∈ g.rangesFor preserve used) : FoundBelow preserve used source t (f ++ g) r := by
  obtain ⟨u, next?, found, hmem, hfound, hr, hsub⟩ := exists_survey_of_surveyAll h hr
  refine ⟨u, next?, _, found, hmem, fun e he => ?_, hfound, hr, fun _ h =>
    mem_rangesFor_append.mpr (.inr (hsub h))⟩
  unfold exportRange? at he
  split at he
  · exact (Option.some.inj he).symm
  · cases he

/-- What is found in the first part of a tree is found below it. -/
theorem foundBelow_of_surveyFirst (h : surveyFirst source t.children = .ok g)
    (hr : r ∈ g.rangesFor preserve used) : FoundBelow preserve used source t (f ++ g) r := by
  unfold FoundBelow
  cases hchildren : t.children with
  | nil =>
    rw [hchildren] at h
    obtain rfl := Except.ok.inj h
    cases hr
  | cons u us =>
    rw [hchildren] at h
    exact ⟨u, _, none, g, List.mem_cons_self, nofun, h, hr, fun _ h =>
      mem_rangesFor_append.mpr (.inr h)⟩

/-- What a survey takes from a tree: the tree as a whole, what goes from an import statement, or
parts of the tree and what was found there. -/
theorem rangesFor_survey (h : survey source export? next? t = .ok f) :
    (∀ r ∈ f.rangesFor preserve used, TakesWhole export? next? t r) ∨ surveyImport t = .ok f ∨
      ∀ r ∈ f.rangesFor preserve used,
        TakesParts source t r ∨ FoundBelow preserve used source t f r := by
  have htakes := takes_actionAt source export? next? t
  rcases survey_cases h with haction | ⟨-, himport⟩ | ⟨found, rest, haction, hrest, rfl⟩ |
    ⟨found, rest, haction, hrest, rfl⟩
  · rw [haction] at htakes
    rw [rangesFor_of_imports htakes.1]
    exact .inl htakes.2
  · exact .inr (.inl himport)
  · rw [haction] at htakes
    refine .inr (.inr fun r hr => ?_)
    refine (mem_rangesFor_append.mp hr).imp (fun hr => ?_) (foundBelow_of_surveyAll hrest)
    rw [rangesFor_of_imports htakes.1] at hr
    exact htakes.2 r hr
  · rw [haction] at htakes
    refine .inr (.inr fun r hr => ?_)
    refine (mem_rangesFor_append.mp hr).imp (fun hr => ?_) (foundBelow_of_surveyFirst hrest)
    rw [rangesFor_of_imports htakes.1] at hr
    exact htakes.2 r hr

/-- A range that stretches from a part of a tree to a part of it. -/
def IsRow (t : Tree) (r : Span) : Prop :=
  ∃ v ∈ t.children, ∃ w ∈ t.children, r = ⟨v.span.start, w.span.stop⟩

/-- A row of parts lies within the tree. -/
theorem IsRow.within (hstands : t.Stands source) (h : IsRow t r) : Within r t := by
  obtain ⟨v, hv, w, hw, rfl⟩ := h
  exact ⟨(hstands.ordered.of_mem hv).1, (hstands.ordered.of_mem hw).2.2⟩

/-- A row of parts covers what is in a part, or leaves it alone. -/
theorem IsRow.respects (hstands : t.Stands source) (h : IsRow t r) (hv : v ∈ t.children)
    (hu : u ∈ v.preorder) : Respects r u := by
  obtain ⟨w, hw, x, hx, rfl⟩ := h
  exact (respects_row hstands.ordered hv hw hx).inside
    (stands_of_mem_preorder (hstands.of_mem hv) hu).2

/-- A range that stretches over parts of a clause or over parts of a list in it. -/
def IsClauseRow (clause : Tree) (r : Span) : Prop :=
  IsRow clause r ∨ ∃ list ∈ clause.children, list.kind = .namedImports ∧ IsRow list r

/-- A row of parts of a clause lies within the statement. -/
theorem IsClauseRow.within (hstands : t.Stands source) (h : IsClauseRow t r) : Within r t := by
  rcases h with h | ⟨list, hlist, -, h⟩
  · exact h.within hstands
  · exact (h.within (hstands.of_mem hlist)).trans (within_of_mem hstands.ordered hlist)

/-- Inside an import statement, ranges take parts of the clause and of lists in it. -/
theorem exists_of_mem_importRanges (h : r ∈ importRanges goes goes' t) :
    ∃ clause ∈ t.child? .importClause, IsClauseRow clause r := by
  obtain ⟨clause, hclause, hr⟩ := List.mem_flatMap.mp h
  refine ⟨clause, Option.mem_toList.mp hclause,
    (mem_clauseRanges.mp hr).imp exists_of_mem_rangesOf ?_⟩
  rintro ⟨list, hlist, hkind, hr⟩
  exact ⟨list, hlist, hkind, exists_of_mem_rangesOf hr⟩

/-- A row of parts of a clause covers what is in the statement, or leaves it alone, except for
lists. -/
theorem IsClauseRow.respects (hstands : t.Stands source) (h : IsClauseRow t r)
    (hv : v ∈ t.children) (hu : u ∈ v.preorder) (hlist : u.kind ≠ .namedImports) :
    Respects r u := by
  rcases h with h | ⟨list, hmem, hkind, h⟩
  · exact h.respects hstands hv hu
  · have hstands' := hstands.of_mem hmem
    refine respects_below hstands hmem (h.within hstands') hv hu fun hu => ?_
    rcases Tree.mem_preorder_iff.mp hu with rfl | ⟨w, hw, hu⟩
    · exact absurd hkind hlist
    · exact h.respects hstands' hw hu

/-- A range that goes from an import statement covers what is in it, except for the clause and its
lists. -/
theorem respects_of_mem_importRanges (hstands : t.Stands source)
    (hr : r ∈ importRanges goes goes' t) (hv : v ∈ t.children) (hu : u ∈ v.preorder)
    (hclause : u.kind ≠ .importClause) (hlist : u.kind ≠ .namedImports) : Respects r u := by
  obtain ⟨clause, hchild, hr⟩ := exists_of_mem_importRanges hr
  obtain ⟨hmem, hkind⟩ := mem_of_child? hchild
  have hstands' := hstands.of_mem hmem
  refine respects_below hstands hmem (hr.within hstands') hv hu fun hu => ?_
  rcases Tree.mem_preorder_iff.mp hu with rfl | ⟨w, hw, hu⟩
  · exact absurd hkind hclause
  · exact hr.respects hstands' hw hu hlist

/-- A range that goes from an import statement lies within it. -/
theorem within_of_mem_importRanges (hstands : t.Stands source)
    (h : r ∈ importRanges goes goes' t) : Within r t := by
  obtain ⟨clause, hchild, hr⟩ := exists_of_mem_importRanges h
  have hmem := (mem_of_child? hchild).1
  exact (hr.within (hstands.of_mem hmem)).trans (within_of_mem hstands.ordered hmem)

/-- What is taken from the result of an arrow function is where its parameters are closed. -/
theorem exists_close_of_mem (hstands : t.Stands source) (hkind : t.kind = .arrow)
    (h : r ∈ (surveyReturnType source t).blanks) :
    ∃ parameters ∈ t.children, parameters.kind = .parameters ∧
      ∃ close ∈ parameters.children, r = ⟨close.span.start, parameters.span.stop⟩ := by
  rcases surveyReturnType_cases hstands hkind with hnone | ⟨m, rfl, hfits, hfound⟩
  · rw [hnone] at h
    cases h
  · rw [hfound] at h
    obtain rfl := List.mem_singleton.mp h
    obtain ⟨parameters, hparameters, -, hstop⟩ := hfits.origin
    obtain ⟨hmem, hkind⟩ := mem_of_child? hparameters
    obtain ⟨origin, -, hstop', -, front, close, hchildren, -, hstart⟩ :=
      close_of_parameters (hstands.of_mem hmem) hkind
    have horigin : origin = m.origin := by omega
    exact ⟨parameters, hmem, hkind, close, by simp [hchildren], by rw [hstart, hstop, horigin]⟩

/-- A range from where a part of a tree starts to where the tree stops. -/
theorem respects_of_mem (hstands : t.Stands source) (hw : w ∈ t.children) (hv : v ∈ t.children)
    (hu : u ∈ v.preorder) : Respects ⟨w.span.start, t.span.stop⟩ u :=
  (respects_rest hstands.ordered hv hw).inside (stands_of_mem_preorder (hstands.of_mem hv) hu).2

/-- Parts that are taken lie within the tree. -/
theorem within_of_takesParts (hstands : t.Stands source) (h : TakesParts source t r) :
    Within r t := by
  rcases h with ⟨u, hu, -, rfl | ⟨-, rfl⟩⟩ | ⟨hkind, hr⟩
  · exact within_of_mem hstands.ordered hu
  · exact ⟨(hstands.ordered.of_mem hu).1, Nat.le_refl _⟩
  · obtain ⟨parameters, hmem, -, close, hclose, rfl⟩ := exists_close_of_mem hstands hkind hr
    have hstart := ((hstands.of_mem hmem).ordered.of_mem hclose).1
    exact Within.trans ⟨hstart, Nat.le_refl _⟩ (within_of_mem hstands.ordered hmem)

/-- Parts that are taken cover what is in the tree or leave it alone, except for parameters. -/
theorem respects_of_takesParts (hstands : t.Stands source) (h : TakesParts source t r)
    (hv : v ∈ t.children) (hu : u ∈ v.preorder) (hkind : u.kind ≠ .parameters) :
    Respects r u := by
  rcases h with ⟨w, hw, -, rfl | ⟨-, rfl⟩⟩ | ⟨harrow, hr⟩
  · exact IsRow.respects hstands ⟨w, hw, w, hw, rfl⟩ hv hu
  · exact respects_of_mem hstands hw hv hu
  · obtain ⟨parameters, hmem, hparameters, close, hclose, rfl⟩ :=
      exists_close_of_mem hstands harrow hr
    have hstands' := hstands.of_mem hmem
    have hstart := (hstands'.ordered.of_mem hclose).1
    refine respects_below hstands hmem ⟨hstart, Nat.le_refl _⟩ hv hu fun hu => ?_
    rcases Tree.mem_preorder_iff.mp hu with rfl | ⟨x, hx, hu⟩
    · exact absurd hparameters hkind
    · exact respects_of_mem hstands' hclose hx hu

/-- Where the ranges that are found at a tree may be. -/
def Reaches (export? : Option Span) (next? : Option Tree) (t : Tree) (r : Span) : Prop :=
  (isTypeDeclaration t.kind = true ∧ export? = some r) ∨ Within r t ∨
    ∃ next ∈ next?, isModifier next.kind = true ∧ r = ⟨t.span.start, next.span.stop⟩

/-- When what is found at the parts of a tree is near them, what is found at the tree is near it. -/
theorem reaches_of_parts (hstands : t.Stands source)
    (ih : ∀ u ∈ t.children, ∀ export? next? g, survey source export? next? u = .ok g →
      ∀ r ∈ g.rangesFor preserve used, Reaches export? next? u r)
    (h : survey source export? next? t = .ok f) (hr : r ∈ f.rangesFor preserve used) :
    Reaches export? next? t r := by
  have hself : Within t.span t := ⟨Nat.le_refl _, Nat.le_refl _⟩
  rcases rangesFor_survey h with htakes | himport | htakes
  · refine (htakes r hr).imp_right (Or.imp_left ?_)
    rintro rfl
    exact hself
  · refine .inr (.inl ?_)
    rcases rangesFor_surveyImport himport with ⟨-, hranges⟩ | hranges
    · rcases hranges r hr with rfl | hr
      · exact hself
      · exact within_of_mem_importRanges hstands hr
    · exact within_of_mem_importRanges hstands ((hranges r).mp hr)
  · refine .inr (.inl ?_)
    rcases htakes r hr with hparts | ⟨u, next?, export?, g, hmem, hexport, hg, hr, -⟩
    · exact within_of_takesParts hstands hparts
    · have hu := mem_of_mem_withNext hmem
      rcases ih u hu _ _ _ hg r hr with ⟨-, he⟩ | hwithin | ⟨next, hnext, -, rfl⟩
      · obtain rfl := hexport r he
        exact hself
      · exact hwithin.trans (within_of_mem hstands.ordered hu)
      · exact IsRow.within hstands ⟨u, hu, next, next_mem_of_mem_withNext hmem hnext, rfl⟩

/-- What a survey finds at a tree is near the tree. -/
theorem reaches_of_survey (hstands : t.Stands source) (h : survey source export? next? t = .ok f)
    (hr : r ∈ f.rangesFor preserve used) : Reaches export? next? t r := by
  induction hstands generalizing export? next? f r with
  | leaf hslice hplain hkind =>
    exact reaches_of_parts (.leaf hslice hplain hkind) nofun h hr
  | node hordered hchildren hplain hdetail ih =>
    exact reaches_of_parts (.node hordered hchildren hplain hdetail)
      (fun u hu _ _ _ hg _ => ih u hu hg) h hr

/-- A range takes parts of a tree only when the tree is surveyed, and then all that goes from the
tree goes. -/
def Spares (preserve : Bool) (used : List String) (source : List Char) (f : Findings) (t : Tree) :
    Prop :=
  ∀ r ∈ f.rangesFor preserve used, Respects r t ∨
    ∃ export? next? g, survey source export? next? t = .ok g ∧ r ∈ g.rangesFor preserve used ∧
      g.rangesFor preserve used ⊆ f.rangesFor preserve used

/-- What stands around a tree and after it does not stop before the tree does. -/
structure Borders (export? : Option Span) (next? : Option Tree) (t : Tree) : Prop where
  around : ∀ e ∈ export?, Covers e t
  after : ∀ next ∈ next?, t.span.stop ≤ next.span.stop

/-- What stands around a child and after it does not stop before the child. -/
theorem borders_of_mem (hstands : t.Stands source) (h : (u, next?) ∈ withNext t.children)
    (hexport : ∀ e ∈ export?, e = t.span) : Borders export? next? u where
  around e he := by
    obtain rfl := hexport e he
    exact within_of_mem hstands.ordered (mem_of_mem_withNext h)
  after next hnext := by
    have hordered := hstands.ordered
    have hspan := hordered.of_mem (next_mem_of_mem_withNext h hnext)
    obtain ⟨front, back, hchildren, rfl⟩ := mem_withNext.mp h
    rw [hchildren] at hordered
    exact (hordered.le_of_append (List.mem_of_mem_head? hnext)).trans hspan.2.1

/-- A tree that is taken as a whole is covered. -/
theorem covers_of_takesWhole (hborders : Borders export? next? t)
    (h : TakesWhole export? next? t r) : Covers r t := by
  rcases h with ⟨-, he⟩ | rfl | ⟨next, hnext, -, rfl⟩
  · exact hborders.around r he
  · exact covers_span t
  · exact ⟨Nat.le_refl _, hborders.after next hnext⟩

/-- Constructs that ranges may take parts of although nothing was found at them: what the survey of
a construct around them takes. -/
def isOpen (kind : Kind) : Bool :=
  kind == .parameters || kind == .importClause || kind == .namedImports

/-- When the surveys of the parts of a tree spare what is in them, the survey of the tree does. -/
theorem spares_of_parts (hstands : t.Stands source) (hborders : Borders export? next? t)
    (ih : ∀ v ∈ t.children, ∀ export? next? g, Borders export? next? v →
      survey source export? next? v = .ok g → u ∈ v.preorder → Spares preserve used source g u)
    (h : survey source export? next? t = .ok f) (hu : u ∈ t.preorder)
    (hkind : isOpen u.kind = false) : Spares preserve used source f u := by
  simp only [isOpen, Bool.or_eq_false_iff, beq_eq_false_iff_ne] at hkind
  obtain ⟨⟨hparameters, hclause⟩, hlist⟩ := hkind
  have hwithin := (stands_of_mem_preorder hstands hu).2
  intro r hr
  rcases Tree.mem_preorder_iff.mp hu with rfl | ⟨v, hv, hu⟩
  · exact .inr ⟨_, _, f, h, hr, List.Subset.refl _⟩
  rcases rangesFor_survey h with htakes | himport | htakes
  · have hcovers := covers_of_takesWhole hborders (htakes r hr)
    exact .inl (Respects.inside (.inl hcovers) hwithin)
  · have hranges : r = t.span ∨
        r ∈ importRanges (partGoes preserve used) (specifierGoes preserve used) t :=
      (rangesFor_surveyImport himport).elim (fun h => h.2 r hr) fun h => .inr ((h r).mp hr)
    rcases hranges with rfl | hr
    · exact .inl (Respects.inside (.inl (covers_span t)) hwithin)
    · exact .inl (respects_of_mem_importRanges hstands hr hv hu hclause hlist)
  · rcases htakes r hr with hparts | ⟨w, next?, export?, g, hmem, hexport, hg, hr, hsub⟩
    · exact .inl (respects_of_takesParts hstands hparts hv hu hparameters)
    have hw := mem_of_mem_withNext hmem
    by_cases hbelow : u ∈ w.preorder
    · refine (ih w hw _ _ g (borders_of_mem hstands hmem hexport) hg hbelow r hr).imp_right ?_
      rintro ⟨_, _, found, hfound, hr, hsub'⟩
      exact ⟨_, _, found, hfound, hr, List.Subset.trans hsub' hsub⟩
    · left
      rcases reaches_of_survey (hstands.of_mem hw) hg hr with ⟨-, he⟩ | hin | ⟨next, hnext, -, rfl⟩
      · obtain rfl := hexport r he
        exact Respects.inside (.inl (covers_span t)) hwithin
      · exact respects_below hstands hw hin hv hu fun h => absurd h hbelow
      · exact IsRow.respects hstands
          ⟨w, hw, next, next_mem_of_mem_withNext hmem hnext, rfl⟩ hv hu

/-- A survey spares what is in a tree. -/
theorem spares_of_survey (hstands : t.Stands source) (hborders : Borders export? next? t)
    (h : survey source export? next? t = .ok f) (hu : u ∈ t.preorder)
    (hkind : isOpen u.kind = false) : Spares preserve used source f u := by
  induction hstands generalizing export? next? f with
  | leaf hslice hplain hdetail =>
    exact spares_of_parts (.leaf hslice hplain hdetail) hborders nofun h hu hkind
  | node hordered hchildren hplain hdetail ih =>
    exact spares_of_parts (.node hordered hchildren hplain hdetail) hborders
      (fun v hv _ _ _ hborders hg hu => ih v hv hborders hg hu) h hu hkind

end ScriptModules.Strip

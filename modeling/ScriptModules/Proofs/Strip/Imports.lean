import ScriptModules.Proofs.Strip.Commas
import ScriptModules.Strip.Elision

/-!
# What goes from an import statement

An import statement that is not dropped as a whole loses the parts of its clause that bind a name
which is not used, and the specifiers that are marked as types.
-/

namespace ScriptModules.Strip

open Grammar (Forest Kind Shape Span Tree)

variable {preserve : Bool} {used : List String} {t u clause : Tree} {ts : Forest} {f : Findings}
  {r : Span}

/-- Whether a specifier is marked as a type. -/
def isMarked (t : Tree) : Bool := t.hasChild (.mark "type") || t.hasChild (.mark "typeof")

/-- The name that a specifier binds. -/
def boundName? (t : Tree) : Option String :=
  (t.children.filter fun u => u.kind == .identifier || u.kind == .string).getLast?.map Tree.text

/-- The name that a part of a clause binds, other than a list of specifiers. -/
def partName? (t : Tree) : Option String :=
  match t.kind with
  | .identifier => some t.text
  | .namespaceImport => (t.child? .identifier).map Tree.text
  | _ => none

/-- A binding is dropped when its name is not used, unless imports are preserved. -/
def isDropped (preserve : Bool) (used : List String) (name? : Option String) : Bool :=
  !preserve && name?.any (!used.contains ·)

/-- Whether a part of a clause goes, other than a list of specifiers. -/
def partGoes (preserve : Bool) (used : List String) (t : Tree) : Bool :=
  isDropped preserve used (partName? t)

/-- Whether a specifier goes. -/
def specifierGoes (preserve : Bool) (used : List String) (t : Tree) : Bool :=
  t.kind == .importSpecifier && (isMarked t || isDropped preserve used (boundName? t))

/-- The ranges that go from a clause, given the parts and the specifiers that go. -/
def clauseRanges (goes goes' : Tree → Bool) (clause : Tree) : List Span :=
  rangesOf goes clause.children ++
    (clause.children.filter (·.kind == .namedImports)).flatMap fun list =>
      rangesOf goes' list.children

/-- A part of a clause that goes is a name or a namespace. -/
theorem kind_of_partGoes (h : partGoes preserve used t = true) :
    t.kind = .identifier ∨ t.kind = .namespaceImport := by
  unfold partGoes partName? at h
  split at h
  · exact .inl ‹_›
  · exact .inr ‹_›
  · simp [isDropped] at h

/-- What goes from a list is a specifier. -/
theorem kind_of_specifierGoes (h : specifierGoes preserve used t = true) :
    t.kind = .importSpecifier := by
  rw [specifierGoes, Bool.and_eq_true, beq_iff_eq] at h
  exact h.1

/-- From a clause go the ranges of its parts and those of specifiers in its lists. -/
theorem mem_clauseRanges {goes goes' : Tree → Bool} :
    r ∈ clauseRanges goes goes' clause ↔ r ∈ rangesOf goes clause.children ∨
      ∃ list ∈ clause.children, list.kind = .namedImports ∧ r ∈ rangesOf goes' list.children := by
  simp [clauseRanges, and_assoc]

/-- The ranges of the bindings that are dropped. -/
def droppedRanges (preserve : Bool) (used : List String) (bindings : List Binding) : List Span :=
  (bindings.filter fun b => isDropped preserve used (some b.name)).map Binding.range

/-- The ranges that are dropped are those of each part. -/
theorem droppedRanges_flatMap {α : Type} (g : α → List Binding) (xs : List α) :
    droppedRanges preserve used (xs.flatMap g) =
      xs.flatMap fun x => droppedRanges preserve used (g x) := by
  rw [droppedRanges, List.filter_flatMap, List.map_flatMap]
  rfl

/-- A name is dropped if it is not used, unless imports are preserved. -/
theorem isDropped_some_iff {name : String} :
    isDropped preserve used (some name) = true ↔ preserve = false ∧ name ∉ used := by
  simp [isDropped]

/-- A statement goes as a whole when it has something to lose and all its bindings are dropped, and
otherwise it loses the bindings that are dropped. -/
theorem elided_eq (preserve : Bool) (used : List String) (i : Import) :
    i.elided preserve used =
      if (i.bindings ≠ [] ∨ i.typeOnly ≠ 0) ∧
          ∀ b ∈ i.bindings, isDropped preserve used (some b.name) = true then [i.range]
      else droppedRanges preserve used i.bindings := by
  unfold Import.elided
  cases hbindings : i.bindings with
  | nil =>
    cases htypes : i.typeOnly <;> cases preserve <;> simp [droppedRanges]
  | cons b bs =>
    cases preserve with
    | true =>
      have hstays : ¬ ∀ d ∈ b :: bs, isDropped true used (some d.name) = true := fun h => by
        simpa [isDropped] using h b List.mem_cons_self
      refine Eq.trans ?_ (if_neg fun h => hstays h.2).symm
      simp [droppedRanges, isDropped]
    | false =>
      have hdropped : (fun b : Binding => isDropped false used (some b.name)) =
          fun b => !used.contains b.name := by
        funext b
        simp [isDropped]
      simp only [List.isEmpty_cons, Bool.false_and, Bool.false_eq_true, if_false, beq_iff_eq,
        List.length_filter_eq_length_iff, droppedRanges, hdropped]
      refine if_congr ?_ rfl rfl
      simp [isDropped]

/-- A statement goes as a whole, or it loses the bindings that are dropped. -/
theorem elided_cases (preserve : Bool) (used : List String) (i : Import) :
    i.elided preserve used = [i.range] ∨
      i.elided preserve used = droppedRanges preserve used i.bindings := by
  rw [elided_eq]
  split
  · exact .inl rfl
  · exact .inr rfl

/-- A statement all of whose bindings are dropped goes as a whole. -/
theorem elided_of_all {i : Import} (hne : i.bindings ≠ [])
    (h : ∀ b ∈ i.bindings, isDropped preserve used (some b.name) = true) :
    i.elided preserve used = [i.range] := by
  rw [elided_eq, if_pos ⟨.inl hne, h⟩]

/-- The ranges to blank of what a survey found, given the names used as values. -/
def Findings.rangesFor (preserve : Bool) (used : List String) (f : Findings) : List Span :=
  f.blanks ++ f.imports.flatMap (Import.elided preserve used)

/-- The ranges that go from a part of a clause. -/
def partRanges (preserve : Bool) (used : List String) (t : Tree) (next? : Option Tree) :
    List Span :=
  (surveyClausePart t next?).1 ++ droppedRanges preserve used (surveyClausePart t next?).2.1

/-- From a list go the specifiers that are marked or dropped, each with the comma behind it. -/
theorem mem_rangesOf_specifierGoes :
    r ∈ rangesOf (specifierGoes preserve used) ts ↔
      ∃ t next?, (t, next?) ∈ withNext ts ∧ t.kind = .importSpecifier ∧
        (isMarked t = true ∨ isDropped preserve used (boundName? t) = true) ∧
          itemRange next? t = r := by
  rw [mem_rangesOf]
  refine exists_congr fun t => exists_congr fun next? => and_congr_right fun _ => ?_
  rw [specifierGoes, Bool.and_eq_true, beq_iff_eq, Bool.or_eq_true, and_assoc]
  refine and_congr_right fun hkind => and_congr_right fun _ => ?_
  rw [partRange, if_neg (by simp [hkind])]

/-- Dropped ranges are those of bindings that are dropped. -/
theorem mem_droppedRanges {bindings : List Binding} :
    r ∈ droppedRanges preserve used bindings ↔
      ∃ b ∈ bindings, isDropped preserve used (some b.name) = true ∧ b.range = r := by
  simp [droppedRanges, and_assoc]

/-- The specifiers that are blanked at once. -/
theorem mem_surveySpecifiers_fst :
    r ∈ (surveySpecifiers t).1 ↔ ∃ s next?, (s, next?) ∈ withNext t.children ∧
      s.kind = .importSpecifier ∧ isMarked s = true ∧ itemRange next? s = r := by
  simp [surveySpecifiers, isMarked, List.partition_eq_filter_filter, and_assoc, and_left_comm]

/-- The specifiers that bind a name. -/
theorem mem_surveySpecifiers_snd {b : Binding} :
    b ∈ (surveySpecifiers t).2.1 ↔ ∃ s next?, (s, next?) ∈ withNext t.children ∧
      s.kind = .importSpecifier ∧ isMarked s = false ∧
        ∃ name ∈ boundName? s, ⟨name, itemRange next? s⟩ = b := by
  simp [surveySpecifiers, isMarked, boundName?, List.partition_eq_filter_filter, and_assoc,
    and_left_comm]

/-- The specifiers that go from a list are those that are marked and those with a name that is not
used. -/
theorem mem_partRanges_of_namedImports {next? : Option Tree} (h : t.kind = .namedImports) :
    r ∈ partRanges preserve used t next? ↔
      r ∈ rangesOf (specifierGoes preserve used) t.children := by
  rw [mem_rangesOf_specifierGoes, partRanges, surveyClausePart, h]
  dsimp only
  rw [List.mem_append, mem_surveySpecifiers_fst, mem_droppedRanges]
  constructor
  · rintro (⟨s, next?, hmem, hkind, hmarked, rfl⟩ | ⟨b, hb, hdropped, rfl⟩)
    · exact ⟨s, next?, hmem, hkind, .inl hmarked, rfl⟩
    · obtain ⟨s, next?, hmem, hkind, -, name, hname, rfl⟩ := mem_surveySpecifiers_snd.mp hb
      refine ⟨s, next?, hmem, hkind, .inr ?_, rfl⟩
      rwa [hname]
  · rintro ⟨s, next?, hmem, hkind, hgoes, rfl⟩
    cases hmarked : isMarked s with
    | true => exact .inl ⟨s, next?, hmem, hkind, hmarked, rfl⟩
    | false =>
      rw [hmarked, or_iff_right Bool.false_ne_true] at hgoes
      cases hname : boundName? s with
      | none => simp [hname, isDropped] at hgoes
      | some name =>
        rw [hname] at hgoes
        exact .inr ⟨_,
          mem_surveySpecifiers_snd.mpr ⟨s, next?, hmem, hkind, hmarked, name, hname, rfl⟩,
          hgoes, rfl⟩

/-- What a part of a clause binds, other than a list of specifiers. -/
theorem surveyClausePart_eq {next? : Option Tree} (h : t.kind ≠ .namedImports) :
    surveyClausePart t next? =
      ([], (partName? t).toList.map fun name => ⟨name, partRange next? t⟩, 0) := by
  unfold surveyClausePart
  split
  · rename_i hkind
    simp [partName?, partRange, hkind]
  · rename_i hkind
    cases hname : t.child? .identifier <;> simp [partName?, partRange, hkind, hname]
  · contradiction
  · simp [partName?]

/-- Any other part goes when its name is not used. -/
theorem mem_partRanges {next? : Option Tree} (h : t.kind ≠ .namedImports) :
    r ∈ partRanges preserve used t next? ↔
      partGoes preserve used t = true ∧ partRange next? t = r := by
  rw [partRanges, surveyClausePart_eq h, List.nil_append, mem_droppedRanges, partGoes]
  cases partName? t with
  | none => simp [isDropped]
  | some name => simp

/-- The ranges that go from the clause of a statement. -/
def importRanges (goes goes' : Tree → Bool) (t : Tree) : List Span :=
  (t.child? .importClause).toList.flatMap (clauseRanges goes goes')

/-- What a clause binds. -/
def clauseBindings (clause : Tree) : List Binding :=
  (withNext clause.children).flatMap fun (t, next?) => (surveyClausePart t next?).2.1

/-- The specifiers that are counted as types are those that are blanked at once. -/
theorem length_surveyClausePart (t : Tree) (next? : Option Tree) :
    (surveyClausePart t next?).2.2 = (surveyClausePart t next?).1.length := by
  by_cases hkind : t.kind = .namedImports
  · rw [surveyClausePart, hkind]
    simp [surveySpecifiers]
  · rw [surveyClausePart_eq hkind]
    rfl

/-- What a survey of an import statement finds. -/
theorem surveyImport_cases (h : surveyImport t = .ok f) :
    (isMarked t = true ∧ f = .ofBlanks [t.span]) ∨
      (t.child? .importClause = none ∧ f = {}) ∨
      ∃ clause i, t.child? .importClause = some clause ∧
        f.blanks = ((withNext clause.children).flatMap fun (t, next?) =>
          (surveyClausePart t next?).1) ∧
        f.imports = [i] ∧ i.range = t.span ∧ i.bindings = clauseBindings clause ∧
        i.typeOnly = f.blanks.length := by
  unfold surveyImport at h
  split at h
  · cases h
  · split at h
    · exact .inl ⟨‹_›, (Except.ok.inj h).symm⟩
    · split at h
      · exact .inr (.inl ⟨‹_›, (Except.ok.inj h).symm⟩)
      · obtain rfl := Except.ok.inj h
        refine .inr (.inr ⟨_, _, ‹_›, List.flatMap_map .., rfl, rfl, List.flatMap_map .., ?_⟩)
        simp only [List.length_flatMap, List.sum_eq_foldr, List.foldr_map, length_surveyClausePart]

/-- From all parts go the ranges of those that go, and those of specifiers in the lists. -/
theorem mem_flatMap_partRanges :
    (r ∈ (withNext ts).flatMap fun (t, next?) => partRanges preserve used t next?) ↔
      r ∈ rangesOf (partGoes preserve used) ts ∨ ∃ list ∈ ts, list.kind = .namedImports ∧
        r ∈ rangesOf (specifierGoes preserve used) list.children := by
  rw [List.mem_flatMap, mem_rangesOf]
  constructor
  · rintro ⟨⟨u, next?⟩, hmem, hr⟩
    by_cases hkind : u.kind = .namedImports
    · exact .inr ⟨u, mem_of_mem_withNext hmem, hkind,
        (mem_partRanges_of_namedImports hkind).mp hr⟩
    · exact .inl ⟨u, next?, hmem, (mem_partRanges hkind).mp hr⟩
  · rintro (⟨u, next?, hmem, hgoes, rfl⟩ | ⟨list, hlist, hkind, hr⟩)
    · refine ⟨(u, next?), hmem, (mem_partRanges fun hkind => ?_).mpr ⟨hgoes, rfl⟩⟩
      rw [goes_list (fun _ => kind_of_partGoes) hkind] at hgoes
      cases hgoes
    · obtain ⟨next?, hmem⟩ := exists_mem_withNext hlist
      exact ⟨(list, next?), hmem, (mem_partRanges_of_namedImports hkind).mpr hr⟩

/-- The ranges that go from a clause are those of specifiers that are marked as types and those of
the bindings that are dropped. -/
theorem mem_importRanges_iff (hclause : t.child? .importClause = some clause) :
    r ∈ importRanges (partGoes preserve used) (specifierGoes preserve used) t ↔
      r ∈ ((withNext clause.children).flatMap fun (t, next?) => (surveyClausePart t next?).1) ∨
        r ∈ droppedRanges preserve used (clauseBindings clause) := by
  rw [importRanges, hclause, Option.toList_some, List.flatMap_singleton, mem_clauseRanges,
    ← mem_flatMap_partRanges, clauseBindings, droppedRanges_flatMap]
  simp only [partRanges, List.mem_append, List.mem_flatMap, and_or_left, exists_or]

/-- An import statement goes as a whole, or else its clause loses the parts that go. -/
theorem rangesFor_surveyImport (h : surveyImport t = .ok f) :
    (t.span ∈ f.rangesFor preserve used ∧ ∀ r ∈ f.rangesFor preserve used,
      r = t.span ∨ r ∈ importRanges (partGoes preserve used) (specifierGoes preserve used) t) ∨
      ∀ r, r ∈ f.rangesFor preserve used ↔
        r ∈ importRanges (partGoes preserve used) (specifierGoes preserve used) t := by
  rcases surveyImport_cases h with ⟨-, rfl⟩ | ⟨hnone, rfl⟩ |
    ⟨clause, i, hclause, hblanks, himports, hrange, hbindings, -⟩
  · exact .inl ⟨List.mem_append_left _ (List.mem_singleton_self _), fun r hr =>
      .inl (by simpa [Findings.rangesFor, Findings.ofBlanks] using hr)⟩
  · exact .inr fun r => by simp [Findings.rangesFor, importRanges, hnone]
  · have hall (r : Span) : r ∈ f.blanks ∨ r ∈ droppedRanges preserve used i.bindings ↔
        r ∈ importRanges (partGoes preserve used) (specifierGoes preserve used) t := by
      rw [mem_importRanges_iff hclause, hblanks, hbindings]
    have hranges (r : Span) : r ∈ f.rangesFor preserve used ↔
        r ∈ f.blanks ∨ r ∈ i.elided preserve used := by
      rw [Findings.rangesFor, himports, List.flatMap_singleton, List.mem_append]
    rcases elided_cases preserve used i with helided | helided
    · refine .inl ⟨?_, fun r hr => ?_⟩
      · rw [hranges, helided, hrange]
        exact .inr (List.mem_singleton_self _)
      · rw [hranges, helided, hrange, List.mem_singleton] at hr
        exact hr.elim (fun hr => .inr ((hall r).mp (.inl hr))) .inl
    · refine .inr fun r => ?_
      rw [hranges, helided, hall]

/-- What binds a name is an item. -/
theorem isItem_of_partName? {name : String} (h : partName? t = some name) : isItem t = true := by
  unfold partName? at h
  split at h
  · rename_i hkind
    simp [isItem, hkind, Kind.isLoose]
  · rename_i hkind
    simp [isItem, hkind, Kind.isLoose]
  · cases h

/-- A part of a clause that goes binds a name that is dropped. -/
theorem exists_partName?_of_partGoes (h : partGoes preserve used t = true) :
    ∃ name, partName? t = some name ∧ isDropped preserve used (some name) = true := by
  unfold partGoes at h
  cases hname : partName? t with
  | none => simp [hname, isDropped] at h
  | some name => exact ⟨name, rfl, hname ▸ h⟩

/-- A clause has a part. -/
theorem exists_item {s : Shape} (hs : s ∈ Kind.shape? .importClause)
    (h : s.Matches (Forest.kinds ts)) : ∃ u ∈ ts, isItem u = true := by
  have hfirst : ∃ k ks, Forest.kinds ts = k :: ks ∧
      (k = .identifier ∨ k = .namespaceImport ∨ k = .namedImports) := by
    have hmem := (matches_importClause_iff hs).mp h
    simp only [List.mem_cons, List.not_mem_nil, or_false] at hmem
    rcases hmem with h | h | h | h | h <;> exact ⟨_, _, h, by simp⟩
  obtain ⟨k, ks, hks, hkind⟩ := hfirst
  obtain ⟨front, u, back, rfl, -, rfl, -⟩ := exists_of_kinds_eq_cons hks
  refine ⟨u, by simp, ?_⟩
  rcases hkind with hkind | hkind | hkind <;> simp [isItem, hkind, Kind.isLoose]

/-- What a clause without a list of specifiers binds. -/
theorem mem_clauseBindings {b : Binding} (h : ∀ u ∈ clause.children, u.kind ≠ .namedImports) :
    b ∈ clauseBindings clause ↔ ∃ u next?, (u, next?) ∈ withNext clause.children ∧
      ∃ name ∈ partName? u, ⟨name, partRange next? u⟩ = b := by
  rw [clauseBindings, List.mem_flatMap, Prod.exists]
  refine exists_congr fun u => exists_congr fun next? => and_congr_right fun hmem => ?_
  simp [surveyClausePart_eq (h u (mem_of_mem_withNext hmem))]

/-- When all parts of a clause go, the statement goes as a whole. -/
theorem span_mem_rangesFor {s : Shape} (h : surveyImport t = .ok f)
    (hclause : t.child? .importClause = some clause) (hs : s ∈ Kind.shape? .importClause)
    (hshape : s.Matches (Forest.kinds clause.children))
    (hgoes : ∀ u ∈ clause.children, isItem u = true → partGoes preserve used u = true) :
    t.span ∈ f.rangesFor preserve used := by
  rcases surveyImport_cases h with ⟨-, rfl⟩ | ⟨hnone, -⟩ |
    ⟨clause', i, hclause', -, himports, hrange, hbindings, -⟩
  · exact List.mem_append_left _ (List.mem_singleton_self _)
  · rw [hclause] at hnone
    cases hnone
  obtain rfl := Option.some.inj (hclause.symm.trans hclause')
  have hlist : ∀ u ∈ clause.children, u.kind ≠ .namedImports := by
    intro u hu hkind
    have hgone := hgoes u hu (by simp [isItem, hkind, Kind.isLoose])
    rw [goes_list (fun _ => kind_of_partGoes) hkind] at hgone
    cases hgone
  have helided : i.elided preserve used = [i.range] := by
    refine elided_of_all ?_ fun b hb => ?_
    · obtain ⟨u, hu, hitem⟩ := exists_item hs hshape
      obtain ⟨name, hname, -⟩ := exists_partName?_of_partGoes (hgoes u hu hitem)
      obtain ⟨next?, hmem⟩ := exists_mem_withNext hu
      rw [hbindings]
      exact List.ne_nil_of_mem
        ((mem_clauseBindings hlist).mpr ⟨u, next?, hmem, name, hname, rfl⟩)
    · rw [hbindings] at hb
      obtain ⟨u, next?, hmem, name, hname, rfl⟩ := (mem_clauseBindings hlist).mp hb
      obtain ⟨name', hname', hdropped⟩ := exists_partName?_of_partGoes
        (hgoes u (mem_of_mem_withNext hmem) (isItem_of_partName? hname))
      obtain rfl := Option.some.inj (hname.symm.trans hname')
      exact hdropped
  rw [Findings.rangesFor, himports, List.flatMap_singleton, helided, hrange]
  exact List.mem_append_right _ (List.mem_singleton_self _)

end ScriptModules.Strip

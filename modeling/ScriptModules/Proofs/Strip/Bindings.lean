import ScriptModules.Proofs.Strip.Exposed
import ScriptModules.Proofs.Strip.Positions
import ScriptModules.Proofs.Strip.Survivors

/-!
# Bindings that go

A binding of an import statement in the open is blanked exactly when its name is not used as a value
and imports are not preserved, and otherwise it stays as it is. The statement is blanked as a whole
exactly when it bound something, or marked something as a type, and none of its bindings stays.
-/

namespace ScriptModules

open Text (bytesOf codeUnits codeUnitsOf isBreak units unitsOf)

namespace Strip

open Grammar (Forest Kind Ordered Span Tree)

variable {preserve : Bool} {used : List String} {source code : List Char} {ranges : List Span}
  {moved : List Moved} {front back : List Char} {c : Char} {o i j : Nat} {r s : Span}
  {t u v clause list : Tree} {ts : Forest} {f g : Findings} {b : Tree × String}

/-- Nothing but blanks and line breaks stands in place of a range. -/
def Blanked (source code : List Char) (r : Span) : Prop :=
  ∀ i < unitsBefore source r.stop, unitsBefore source r.start ≤ i →
    (codeUnitsOf code)[i]? ∈ [some 32, some 10, some 13]

/-- What stood in a range stands there still. -/
def Kept (source code : List Char) (r : Span) : Prop :=
  ∀ i < unitsBefore source r.stop, unitsBefore source r.start ≤ i →
    (codeUnitsOf code)[i]? = (codeUnitsOf source)[i]?

/-- Some character in a range is neither a space nor part of a line break. -/
def Visible (source : List Char) (r : Span) : Prop :=
  ∃ front c back, source = front ++ c :: back ∧ r.holds (bytesOf front) = true ∧ c ≠ ' ' ∧
    isBreak c = false

instance (source code : List Char) (r : Span) : Decidable (Blanked source code r) :=
  inferInstanceAs (Decidable (∀ i < _, _))

/-- The code units of a character stand before an offset when the character does. -/
theorem lt_unitsBefore_iff (hsource : source = front ++ c :: back) (hj : j < units c) (o : Nat) :
    unitsOf front + j < unitsBefore source o ↔ bytesOf front < o := by
  subst hsource
  unfold unitsBefore
  induction front generalizing o with
  | nil =>
    rw [List.nil_append, Text.before, Text.bytesOf_nil, Text.unitsOf_nil]
    split
    · rename_i hzero
      simp [hzero, unitsOf]
    · rw [Text.unitsOf_cons]
      omega
  | cons d front ih =>
    rw [List.cons_append, Text.before, Text.bytesOf_cons, Text.unitsOf_cons]
    split
    · rename_i hzero
      simp [hzero, unitsOf]
    · have hrest := ih (o - d.utf8Size)
      rw [Text.unitsOf_cons]
      omega

/-- The character at an offset is in a range where its code units are. -/
theorem holds_iff_units (hsource : source = front ++ c :: back) (hj : j < units c) :
    r.holds (bytesOf front) = true ↔
      unitsBefore source r.start ≤ unitsOf front + j ∧
        unitsOf front + j < unitsBefore source r.stop := by
  rw [holds_iff, ← lt_unitsBefore_iff hsource hj, ← Nat.not_lt, ← Nat.not_lt,
    ← lt_unitsBefore_iff hsource hj]

/-- A code unit in place of a range is one of a character in the range. -/
theorem exists_char_of_place (hlow : unitsBefore source r.start ≤ i)
    (hhigh : i < unitsBefore source r.stop) :
    ∃ front c back j, source = front ++ c :: back ∧ i = unitsOf front + j ∧ j < units c ∧
      r.holds (bytesOf front) = true := by
  have hle : unitsBefore source r.stop ≤ unitsOf source := by
    have hsplit := congrArg unitsOf (Text.before_append_fromOffset r.stop source)
    rw [Text.unitsOf_append] at hsplit
    exact Nat.le.intro hsplit
  obtain ⟨front, c, back, j, hsource, rfl, hj⟩ := Text.exists_char_of_lt (hhigh.trans_le hle)
  exact ⟨front, c, back, j, hsource, rfl, hj, (holds_iff_units hsource hj).mpr ⟨hlow, hhigh⟩⟩

/-- A part of a blanked range is blanked. -/
theorem Blanked.inside (h : Blanked source code r) (hwithin : r.start ≤ s.start ∧ s.stop ≤ r.stop) :
    Blanked source code s := by
  intro i hi hlow
  obtain ⟨front, c, back, j, hsource, rfl, hj, hholds⟩ := exists_char_of_place hlow hi
  have hholds' : r.holds (bytesOf front) = true := by
    rw [holds_iff] at hholds ⊢
    omega
  obtain ⟨hstart, hstop⟩ := (holds_iff_units hsource hj).mp hholds'
  exact h _ hstop hstart

/-- Visible text is not blanked when it is kept. -/
theorem Kept.not_blanked (h : Kept source code r) (hvisible : Visible source r) :
    ¬ Blanked source code r := by
  intro hblanked
  obtain ⟨front, c, back, hsource, hholds, hspace, hbreak⟩ := hvisible
  obtain ⟨hstart, hstop⟩ := (holds_iff_units hsource (Text.units_pos c)).mp hholds
  have hunit := hblanked _ hstop hstart
  rw [h _ hstop hstart, hsource, Text.getElem?_codeUnitsOf front back (Text.units_pos c)] at hunit
  simp only [List.mem_cons, List.not_mem_nil, or_false] at hunit
  rcases hunit with hunit | hunit | hunit
  · obtain ⟨-, hc⟩ := Text.codeUnits_eq_of_mem (List.mem_of_getElem? hunit) (by decide)
    exact hspace (Char.ext (UInt32.toNat_inj.mp hc))
  · rw [Text.isBreak_of_codeUnit (List.mem_of_getElem? hunit) (by simp)] at hbreak
    cases hbreak
  · rw [Text.isBreak_of_codeUnit (List.mem_of_getElem? hunit) (by simp)] at hbreak
    cases hbreak

/-- A range that is covered is blanked, unless a parenthesis moves there. -/
theorem blanked_of_covers (hclose : ∀ m ∈ moved, m.char = ')') (hr : r ∈ ranges)
    (hcovers : r.start ≤ s.start ∧ s.stop ≤ r.stop)
    (hmoved : ∀ m ∈ moved, s.holds m.offset = false) :
    Blanked source (blankRanges ranges moved source) s := by
  intro i hi hlow
  obtain ⟨front, c, back, j, hsource, rfl, hj, hholds⟩ := exists_char_of_place hlow hi
  rw [getElem?_blankRanges ranges hclose hsource hj, pieceAt, isBlanked]
  have hany : ranges.any (·.holds (bytesOf front)) = true := by
    refine List.any_eq_true.mpr ⟨r, hr, ?_⟩
    rw [holds_iff] at hholds ⊢
    omega
  rw [hany, Bool.true_and]
  cases hbreak : isBreak c with
  | false =>
    have hnone : moved.any (·.offset == bytesOf front) = false := by
      rw [List.any_eq_false]
      intro m hm heq
      rw [← beq_iff_eq.mp heq, hmoved m hm] at hholds
      cases hholds
    rw [Bool.not_false, if_pos rfl, codeUnitsOf_blankOf hclose, hnone, if_neg Bool.false_ne_true,
      ← List.replicate_succ, List.getElem?_replicate, if_pos (by omega)]
    exact List.mem_cons_self
  | true =>
    rw [Bool.not_true, if_neg Bool.false_ne_true, Text.codeUnitsOf_cons, Text.codeUnitsOf_nil,
      List.append_nil]
    rcases Text.isBreak_iff.mp hbreak with rfl | rfl
    · obtain rfl : j = 0 := by simpa [units] using hj
      simp [codeUnits]
    · obtain rfl : j = 0 := by simpa [units] using hj
      simp [codeUnits]

/-- A range that no other range touches is kept. -/
theorem kept_of_apart (hclose : ∀ m ∈ moved, m.char = ')')
    (h : ∀ r ∈ ranges, r.stop ≤ s.start ∨ s.stop ≤ r.start) :
    Kept source (blankRanges ranges moved source) s := by
  intro i hi hlow
  obtain ⟨front, c, back, j, hsource, rfl, hj, hholds⟩ := exists_char_of_place hlow hi
  have hany : ranges.any (·.holds (bytesOf front)) = false := by
    rw [List.any_eq_false]
    intro r hr hheld
    have hapart := h r hr
    rw [holds_iff] at hholds hheld
    omega
  rw [getElem?_blankRanges ranges hclose hsource hj, pieceAt, isBlanked, hany, Bool.false_and,
    if_neg Bool.false_ne_true, Text.codeUnitsOf_cons, Text.codeUnitsOf_nil, List.append_nil,
    hsource, Text.getElem?_codeUnitsOf front back hj]

/-- A range is visible if a part of it is. -/
theorem Visible.inside (h : Visible source s) (hwithin : r.start ≤ s.start ∧ s.stop ≤ r.stop) :
    Visible source r := by
  obtain ⟨front, c, back, hsource, hholds, hvisible⟩ := h
  refine ⟨front, c, back, hsource, ?_, hvisible⟩
  rw [holds_iff] at hholds ⊢
  omega

/-- A visible token can be seen. -/
theorem visible_of_token (hstands : t.Stands source) (hmade : t.Made)
    (hkind : t.kind.isVisible = true) : Visible source t.span := by
  cases hmade with
  | @leaf kind span text htoken hvisible =>
    obtain ⟨c, hc, hspace, hbreak⟩ := hvisible hkind
    cases hstands with
    | leaf hslice =>
      obtain ⟨front, back, hsource, hstart, hstop⟩ := hslice
      obtain ⟨rest, hrest⟩ := List.head?_eq_some_iff.mp hc
      rw [hrest] at hsource hstop
      refine ⟨front, c, rest ++ back, by simpa using hsource, ?_, hspace, hbreak⟩
      have hsize := c.utf8Size_pos
      rw [Text.bytesOf_append, Text.bytesOf_cons] at hstop
      rw [holds_iff]
      change span.start ≤ bytesOf front ∧ bytesOf front < span.stop
      omega
  | @node kind span children htoken =>
    have hvisible : kind.isVisible = true := hkind
    cases kind <;> simp_all [Kind.isVisible, Kind.isToken]

/-- A construct is visible when a part of it is. -/
theorem visible_of_mem (hstands : t.Stands source) (hmade : t.Made) (hu : u ∈ t.children)
    (hkind : u.kind.isVisible = true) : Visible source t.span :=
  (visible_of_token (hstands.of_mem hu) (hmade.of_mem hu) hkind).inside
    (within_of_mem hstands.ordered hu)

/-- The trees of a part of a clause that bind a name, each with the name. Specifiers that are marked
as types bind none. -/
def partBindings (t : Tree) : List (Tree × String) :=
  if t.kind = .namedImports then
    t.children.filterMap fun s =>
      if s.kind == .importSpecifier && !isMarked s then (boundName? s).map (s, ·) else none
  else (partName? t).toList.map (t, ·)

/-- The trees of an import statement that bind a name, each with the name. -/
def bindings (t : Tree) : List (Tree × String) :=
  (t.child? .importClause).toList.flatMap fun clause => clause.children.flatMap partBindings

/-- The specifiers of an import statement that are marked as types. -/
def typeSpecifiers (t : Tree) : List Tree :=
  (t.child? .importClause).toList.flatMap fun clause =>
    (clause.children.filter (·.kind == .namedImports)).flatMap fun list =>
      list.children.filter fun s => s.kind == .importSpecifier && isMarked s

/-- A part of a clause binds a name itself, or else in its specifiers, but for those that are
marked. -/
theorem mem_partBindings :
    b ∈ partBindings t ↔
      (t.kind ≠ .namedImports ∧ b.1 = t ∧ partName? t = some b.2) ∨
        (t.kind = .namedImports ∧ b.1 ∈ t.children ∧ b.1.kind = .importSpecifier ∧
          isMarked b.1 = false ∧ boundName? b.1 = some b.2) := by
  obtain ⟨u, name⟩ := b
  unfold partBindings
  split
  · rename_i hkind
    simp only [List.mem_filterMap, hkind, ne_eq, not_true_eq_false, false_and, false_or, true_and]
    constructor
    · rintro ⟨s, hs, heq⟩
      split at heq
      · rename_i hspecifier
        rw [Bool.and_eq_true, beq_iff_eq, Bool.not_eq_true'] at hspecifier
        obtain ⟨name', hname, heq⟩ := Option.map_eq_some_iff.mp heq
        obtain ⟨rfl, rfl⟩ := Prod.mk.inj heq
        exact ⟨hs, hspecifier.1, hspecifier.2, hname⟩
      · cases heq
    · rintro ⟨hs, hkind, hmarked, hname⟩
      exact ⟨u, hs, by simp [hkind, hmarked, hname]⟩
  · rename_i hkind
    simp only [List.mem_map, Option.mem_toList, Prod.mk.injEq, hkind, ne_eq, not_false_eq_true,
      true_and, false_and, or_false]
    constructor
    · rintro ⟨_, hname, rfl, rfl⟩
      exact ⟨rfl, hname⟩
    · rintro ⟨rfl, hname⟩
      exact ⟨name, hname, rfl, rfl⟩

/-- What a survey of a clause binds are the names there. -/
theorem exists_mem_clauseBindings {name : String} :
    (∃ b ∈ clauseBindings clause, b.name = name) ↔
      ∃ b ∈ clause.children.flatMap partBindings, b.2 = name := by
  simp only [clauseBindings, List.mem_flatMap, Prod.exists]
  constructor
  · rintro ⟨b, ⟨u, next?, hmem, hb⟩, rfl⟩
    have hu := mem_of_mem_withNext hmem
    by_cases hkind : u.kind = .namedImports
    · rw [surveyClausePart, hkind] at hb
      obtain ⟨s, next?, hs, hspecifier, hmarked, name, hname, rfl⟩ := mem_surveySpecifiers_snd.mp hb
      exact ⟨s, name, ⟨u, hu, mem_partBindings.mpr
        (.inr ⟨hkind, mem_of_mem_withNext hs, hspecifier, hmarked, hname⟩)⟩, rfl⟩
    · rw [surveyClausePart_eq hkind] at hb
      obtain ⟨name, hname, rfl⟩ := List.mem_map.mp hb
      exact ⟨u, name, ⟨u, hu, mem_partBindings.mpr
        (.inl ⟨hkind, rfl, Option.mem_toList.mp hname⟩)⟩, rfl⟩
  · rintro ⟨s, name, ⟨u, hu, hb⟩, rfl⟩
    obtain ⟨next?, hmem⟩ := exists_mem_withNext hu
    rcases mem_partBindings.mp hb with ⟨hkind, rfl, hname⟩ | ⟨hkind, hs, hspecifier, hmarked, hname⟩
    · refine ⟨⟨name, partRange next? s⟩, ⟨s, next?, hmem, ?_⟩, rfl⟩
      rw [surveyClausePart_eq hkind]
      exact List.mem_map.mpr ⟨name, Option.mem_toList.mpr hname, rfl⟩
    · obtain ⟨after?, hs⟩ := exists_mem_withNext hs
      refine ⟨⟨name, itemRange after? s⟩, ⟨u, next?, hmem, ?_⟩, rfl⟩
      rw [surveyClausePart, hkind]
      exact mem_surveySpecifiers_snd.mpr ⟨s, after?, hs, hspecifier, hmarked, name, hname, rfl⟩

/-- What a survey of a clause blanks at once are the specifiers there that are marked as types. -/
theorem clauseBlanks_eq_nil_iff (hclause : t.child? .importClause = some clause) :
    ((withNext clause.children).flatMap fun (t, next?) => (surveyClausePart t next?).1) = [] ↔
      typeSpecifiers t = [] := by
  simp only [typeSpecifiers, hclause, Option.toList_some, List.flatMap_singleton,
    List.eq_nil_iff_forall_not_mem, List.mem_flatMap, List.mem_filter, Prod.exists,
    Bool.and_eq_true, beq_iff_eq]
  constructor
  · rintro h s ⟨list, ⟨hlist, hkind⟩, hs, hspecifier, hmarked⟩
    obtain ⟨next?, hmem⟩ := exists_mem_withNext hlist
    obtain ⟨after?, hs⟩ := exists_mem_withNext hs
    refine h (itemRange after? s) ⟨list, next?, hmem, ?_⟩
    rw [surveyClausePart, hkind]
    exact mem_surveySpecifiers_fst.mpr ⟨s, after?, hs, hspecifier, hmarked, rfl⟩
  · rintro h r ⟨u, next?, hmem, hr⟩
    by_cases hkind : u.kind = .namedImports
    · rw [surveyClausePart, hkind] at hr
      obtain ⟨s, after?, hs, hspecifier, hmarked, -⟩ := mem_surveySpecifiers_fst.mp hr
      exact h s ⟨u, ⟨mem_of_mem_withNext hmem, hkind⟩, mem_of_mem_withNext hs, hspecifier, hmarked⟩
    · rw [surveyClausePart_eq hkind] at hr
      cases hr

/-- An import statement binds the names that the parts of its clause bind. -/
theorem mem_bindings :
    b ∈ bindings t ↔ ∃ clause, t.child? .importClause = some clause ∧ ∃ u ∈ clause.children,
      b ∈ partBindings u := by
  simp [bindings]

/-- A part that binds a name itself is a name or a namespace. -/
theorem kind_of_partName? {name : String} (h : partName? t = some name) :
    t.kind = .identifier ∨ t.kind = .namespaceImport ∧ ∃ u ∈ t.children, u.kind = .identifier := by
  unfold partName? at h
  split at h
  · exact .inl ‹_›
  · obtain ⟨u, hu, -⟩ := Option.map_eq_some_iff.mp h
    exact .inr ⟨‹_›, u, mem_of_child? hu⟩
  · cases h

/-- A specifier that binds a name holds it. -/
theorem exists_of_boundName? {name : String} (h : boundName? t = some name) :
    ∃ u ∈ t.children, u.kind = .identifier ∨ u.kind = .string := by
  obtain ⟨u, hu, -⟩ := Option.map_eq_some_iff.mp h
  have hmem := List.mem_filter.mp (List.mem_of_getLast? hu)
  exact ⟨u, hmem.1, by simpa using hmem.2⟩

section

variable (hstands : t.Stands source) (hb : b ∈ bindings t)

include hstands hb

/-- What binds a name is in the statement. -/
theorem within_of_mem_bindings : Within b.1.span t := by
  obtain ⟨clause, hclause, u, hu, hb⟩ := mem_bindings.mp hb
  have hmem := (mem_of_child? hclause).1
  have hstands' := hstands.of_mem hmem
  have hwithin := (within_of_mem hstands'.ordered hu).trans (within_of_mem hstands.ordered hmem)
  rcases mem_partBindings.mp hb with ⟨-, hself, -⟩ | ⟨-, hs, -⟩
  · rwa [hself]
  · exact (within_of_mem (hstands'.of_mem hu).ordered hs).trans hwithin

/-- A binding shows its name. -/
theorem visible_of_mem_bindings (hmade : t.Made) : Visible source b.1.span := by
  obtain ⟨clause, hclause, u, hu, hb⟩ := mem_bindings.mp hb
  have hmem := (mem_of_child? hclause).1
  have hstands' := (hstands.of_mem hmem).of_mem hu
  have hmade' := (hmade.of_mem hmem).of_mem hu
  rcases mem_partBindings.mp hb with ⟨-, hself, hname⟩ | ⟨-, hs, -, -, hname⟩
  · rw [hself]
    rcases kind_of_partName? hname with hkind | ⟨-, v, hv, hkind⟩
    · exact visible_of_token hstands' hmade' (by rw [hkind]; rfl)
    · exact visible_of_mem hstands' hmade' hv (by rw [hkind]; rfl)
  · obtain ⟨v, hv, hkind⟩ := exists_of_boundName? hname
    refine visible_of_mem (hstands'.of_mem hs) (hmade'.of_mem hs) hv ?_
    rcases hkind with hkind | hkind <;> rw [hkind] <;> rfl

/-- Of a statement that loses parts and specifiers only, a binding is covered when it is dropped,
and otherwise it is left alone. -/
theorem isCovered_of_mem_bindings
    (h : Loses ranges t (partGoes preserve used) (specifierGoes preserve used)) :
    isCovered ranges b.1 = isDropped preserve used (some b.2) ∧ ∀ r ∈ ranges, Respects r b.1 := by
  obtain ⟨clause, hclause, u, hu, hb⟩ := mem_bindings.mp hb
  obtain ⟨hmem, hclauseKind⟩ := mem_of_child? hclause
  have hstands' := hstands.of_mem hmem
  have hfilled := filled_of_importClause hstands' hclauseKind
  have hwithin := within_of_mem hstands'.ordered hu
  rcases mem_partBindings.mp hb with ⟨hlist, hself, hname⟩ | ⟨hlist, hs, hkind, hmarked, hname⟩
  · rw [hself]
    have hitem := isItem_of_partName? hname
    have hloose := isLoose_of_isItem hitem
    refine ⟨?_, fun r hr => respects_of_loses hstands h hclause hr hu
      (Tree.mem_preorder_iff.mpr (.inl rfl)) hlist⟩
    rw [isCovered_of_loses hstands h hclause hwithin (hfilled u hu hloose),
      isCovered_clauseRanges h.specifier hstands' hclauseKind hu hloose,
      isCovered_rangesOf hstands'.ordered hfilled hu hitem, partGoes, hname]
  · have hstands'' := hstands'.of_mem hu
    have hfilled' := filled_of_namedImports hstands'' hlist
    have hitem : isItem b.1 = true := by simp [isItem, hkind, Kind.isLoose]
    have hloose := isLoose_of_isItem hitem
    refine ⟨?_, fun r hr => respects_of_loses hstands h hclause hr hu (Tree.mem_preorder_iff.mpr
      (.inr ⟨_, hs, Tree.mem_preorder_iff.mpr (.inl rfl)⟩)) (by simp [hkind])⟩
    rw [isCovered_of_loses hstands h hclause ((within_of_mem hstands''.ordered hs).trans hwithin)
        (hfilled' b.1 hs hloose),
      isCovered_clauseRanges_list h.part hstands' hclauseKind hu hlist hs hloose,
      isCovered_rangesOf hstands''.ordered hfilled' hs hitem, specifierGoes, hname, hmarked, hkind]
    rfl

end

section

variable (hstands : t.Stands source) (hmade : t.Made) (hkind : t.kind = .importStatement)

include hstands hmade hkind

/-- A statement opens with a keyword, which is no part of its clause. -/
theorem exists_keyword : ∃ u ∈ t.children, u.kind = .mark "import" ∧ Visible source u.span := by
  obtain ⟨u, hu, hopens⟩ := hmade.exists_opening (k := .mark "import") (by rw [hkind]; rfl)
  exact ⟨u, hu, hopens,
    visible_of_token (hstands.of_mem hu) (hmade.of_mem hu) (by rw [hopens]; rfl)⟩

/-- The statement itself is none of the ranges of its parts. -/
theorem span_not_mem_importRanges {goes goes' : Tree → Bool} :
    t.span ∉ importRanges goes goes' t := by
  intro hr
  obtain ⟨clause, hclause, hrow⟩ := exists_of_mem_importRanges hr
  obtain ⟨hmem, hclauseKind⟩ := mem_of_child? hclause
  obtain ⟨u, hu, hopens, front, c, back, -, hholds, -⟩ := exists_keyword hstands hmade hkind
  have hne : u ≠ clause := by
    rintro rfl
    rw [hopens] at hclauseKind
    cases hclauseKind
  obtain ⟨hstart, hstop⟩ := hrow.within (hstands.of_mem hmem)
  obtain ⟨hustart, hustop⟩ := within_of_mem hstands.ordered hu
  rw [holds_iff] at hholds
  rcases hstands.ordered.apart hu hmem hne with h | h <;> omega

/-- A statement goes as a whole when it binds something, or marks something as a type, and all its
bindings are dropped. -/
theorem span_mem_rangesFor_iff (h : surveyImport t = .ok g) (hmarked : isMarked t = false) :
    t.span ∈ g.rangesFor preserve used ↔ (bindings t ≠ [] ∨ typeSpecifiers t ≠ []) ∧
      ∀ b ∈ bindings t, isDropped preserve used (some b.2) = true := by
  rcases surveyImport_cases h with ⟨hmarked', -⟩ | ⟨hnone, rfl⟩ |
    ⟨clause, i, hclause, hblanks, himports, hrange, hbindings, htypes⟩
  · rw [hmarked] at hmarked'
    cases hmarked'
  · simp [Findings.rangesFor, bindings, typeSpecifiers, hnone]
  have hnames (name : String) : (∃ b ∈ i.bindings, b.name = name) ↔
      ∃ b ∈ bindings t, b.2 = name := by
    rw [hbindings, exists_mem_clauseBindings, bindings, hclause, Option.toList_some,
      List.flatMap_singleton]
  have hsome : i.bindings ≠ [] ↔ bindings t ≠ [] := by
    constructor <;> intro hne <;> obtain ⟨b, hb⟩ := List.exists_mem_of_ne_nil _ hne
    · obtain ⟨d, hd, -⟩ := (hnames b.name).mp ⟨b, hb, rfl⟩
      exact List.ne_nil_of_mem hd
    · obtain ⟨d, hd, -⟩ := (hnames b.2).mpr ⟨b, hb, rfl⟩
      exact List.ne_nil_of_mem hd
  have hall : (∀ b ∈ i.bindings, isDropped preserve used (some b.name) = true) ↔
      ∀ b ∈ bindings t, isDropped preserve used (some b.2) = true := by
    constructor
    · intro hdropped b hb
      obtain ⟨d, hd, heq⟩ := (hnames b.2).mpr ⟨b, hb, rfl⟩
      exact heq ▸ hdropped d hd
    · intro hdropped b hb
      obtain ⟨d, hd, heq⟩ := (hnames b.name).mp ⟨b, hb, rfl⟩
      exact heq ▸ hdropped d hd
  have htypes' : i.typeOnly ≠ 0 ↔ typeSpecifiers t ≠ [] := by
    rw [htypes, Ne, List.length_eq_zero_iff, hblanks, clauseBlanks_eq_nil_iff hclause]
  rw [← hsome, ← hall, ← htypes', Findings.rangesFor, himports, List.flatMap_singleton, elided_eq,
    hrange]
  split
  · rename_i hgoes
    exact iff_of_true (List.mem_append_right _ (List.mem_singleton_self _)) hgoes
  · rename_i hstays
    refine iff_of_false (fun hmem => ?_) hstays
    rw [hblanks, hbindings, List.mem_append, ← mem_importRanges_iff hclause] at hmem
    exact span_not_mem_importRanges hstands hmade hkind hmem

end

/-- A statement with nothing to lose loses nothing. -/
theorem rangesFor_eq_nil (h : surveyImport t = .ok g) (hmarked : isMarked t = false)
    (hbindings : bindings t = []) (htypes : typeSpecifiers t = []) :
    g.rangesFor preserve used = [] := by
  rcases surveyImport_cases h with ⟨hmarked', -⟩ | ⟨-, rfl⟩ |
    ⟨clause, i, hclause, hblanks, himports, -, hnames, hcount⟩
  · rw [hmarked] at hmarked'
    cases hmarked'
  · rfl
  have hnone : g.blanks = [] := by rw [hblanks, clauseBlanks_eq_nil_iff hclause, htypes]
  have hempty : i.bindings = [] := by
    rw [List.eq_nil_iff_forall_not_mem]
    intro b hb
    obtain ⟨d, hd, -⟩ := exists_mem_clauseBindings.mp ⟨b, hnames ▸ hb, rfl⟩
    rw [bindings, hclause, Option.toList_some, List.flatMap_singleton] at hbindings
    rw [hbindings] at hd
    cases hd
  rw [Findings.rangesFor, himports, List.flatMap_singleton, elided_eq, hempty, hcount, hnone]
  rfl

/-- A statement that is spared loses just the parts that go. -/
theorem Spared.loses (hspared : Spared preserve used f g t) (hstands : t.Stands source)
    (hg : surveyImport t = .ok g) (hspan : t.span ∉ g.rangesFor preserve used) :
    Loses (f.rangesFor preserve used) t (partGoes preserve used) (specifierGoes preserve used) :=
  loses_of_surveyImport hstands hg hspan hspared.subset fun r hr => (hspared.ranges r hr).symm

/-- What is left of an import statement, given the names that are used as values: the bindings of
the others are blanked, and the statement with them when it had any and none stays. -/
structure Elides (preserve : Bool) (used : List String) (source code : List Char) (t : Tree) :
    Prop where
  binding : ∀ b ∈ bindings t, Blanked source code b.1.span ↔ preserve = false ∧ b.2 ∉ used
  survivor : ∀ b ∈ bindings t, preserve = true ∨ b.2 ∈ used → Kept source code b.1.span
  statement : Blanked source code t.span ↔ (bindings t ≠ [] ∨ typeSpecifiers t ≠ []) ∧
    ∀ b ∈ bindings t, Blanked source code b.1.span
  nothing : bindings t = [] → typeSpecifiers t = [] → Kept source code t.span

section

variable (hclose : ∀ m ∈ f.moved, m.char = ')') (hstands : t.Stands source) (hmade : t.Made)
  (hkind : t.kind = .importStatement) (hmarked : isMarked t = false)
  (hg : surveyImport t = .ok g) (hspared : Spared preserve used f g t)
  (hcode : code = blankRanges (f.rangesFor preserve used) f.moved source)

include hclose hspared hcode

/-- What is covered in a statement is blanked. -/
theorem blanked_of_mem (hwithin : Within u.span t) (hr : r ∈ f.rangesFor preserve used)
    (hcovers : Covers r u) : Blanked source code u.span := by
  rw [hcode]
  refine blanked_of_covers hclose hr hcovers fun m hm => ?_
  have houtside := hspared.moved m hm
  obtain ⟨hstart, hstop⟩ := hwithin
  rw [← Bool.not_eq_true, holds_iff] at houtside ⊢
  omega

include hstands hg

/-- What a statement does not lose is kept when the statement does not go as a whole. -/
theorem kept_of_not_covers (hspan : t.span ∉ g.rangesFor preserve used)
    (hb : b ∈ bindings t) (hstays : isDropped preserve used (some b.2) = false) :
    Kept source code b.1.span := by
  have hloses := hspared.loses hstands hg hspan
  obtain ⟨hcovered, hrespects⟩ := isCovered_of_mem_bindings hstands hb hloses
  rw [hcode]
  refine kept_of_apart hclose fun r hr => (hrespects r hr).resolve_left fun hcovers => ?_
  rw [← hcovered, isCovered_iff.mpr ⟨r, hr, hcovers⟩] at hstays
  cases hstays

include hmade hkind

/-- A statement is blanked when a survey takes it as a whole. Otherwise its keyword stays. -/
theorem blanked_statement_iff :
    Blanked source code t.span ↔ t.span ∈ g.rangesFor preserve used := by
  refine ⟨fun hblanked => ?_, fun hspan => blanked_of_mem hclose hspared hcode
    ⟨Nat.le_refl _, Nat.le_refl _⟩ (hspared.subset hspan) (covers_span t)⟩
  by_contra hspan
  have hloses := hspared.loses hstands hg hspan
  obtain ⟨u, hu, hopens, hvisible⟩ := exists_keyword hstands hmade hkind
  have hkept : Kept source code u.span := hcode ▸ kept_of_apart hclose
    ((importLeft_of_loses hstands hloses).rest u hu (by simp [hopens]))
  exact hkept.not_blanked hvisible (hblanked.inside (within_of_mem hstands.ordered hu))

include hmarked

/-- A binding is blanked when it is dropped, and otherwise it stays. -/
theorem binding_cases (hb : b ∈ bindings t) :
    (isDropped preserve used (some b.2) = true ∧ Blanked source code b.1.span) ∨
      isDropped preserve used (some b.2) = false ∧ Kept source code b.1.span := by
  have hwithin := within_of_mem_bindings hstands hb
  by_cases hspan : t.span ∈ g.rangesFor preserve used
  · have hall := ((span_mem_rangesFor_iff hstands hmade hkind hg hmarked).mp hspan).2
    exact .inl ⟨hall b hb, ((blanked_statement_iff hclose hstands hmade hkind hg hspared
      hcode).mpr hspan).inside hwithin⟩
  · cases hdropped : isDropped preserve used (some b.2) with
    | true =>
      have hloses := hspared.loses hstands hg hspan
      have hcovered := (isCovered_of_mem_bindings hstands hb hloses).1
      rw [hdropped, isCovered_iff] at hcovered
      obtain ⟨r, hr, hcovers⟩ := hcovered
      exact .inl ⟨rfl, blanked_of_mem hclose hspared hcode hwithin hr hcovers⟩
    | false =>
      exact .inr ⟨rfl, kept_of_not_covers hclose hstands hg hspared hcode hspan hb hdropped⟩

/-- What a survey leaves of an import statement that nothing else touches. -/
theorem elides_of_spared : Elides preserve used source code t := by
  have hbinding : ∀ b ∈ bindings t, Blanked source code b.1.span ↔
      isDropped preserve used (some b.2) = true := by
    intro b hb
    rcases binding_cases hclose hstands hmade hkind hmarked hg hspared hcode hb with
      ⟨hdropped, hblanked⟩ | ⟨hstays, hkept⟩
    · exact iff_of_true hblanked hdropped
    · exact iff_of_false (hkept.not_blanked (visible_of_mem_bindings hstands hb hmade))
        (Bool.eq_false_iff.mp hstays)
  refine ⟨fun b hb => (hbinding b hb).trans isDropped_some_iff, fun b hb hstays => ?_, ?_,
    fun hbindings htypes => ?_⟩
  · rcases binding_cases hclose hstands hmade hkind hmarked hg hspared hcode hb with
      ⟨hdropped, -⟩ | ⟨-, hkept⟩
    · obtain ⟨hpreserve, hunused⟩ := isDropped_some_iff.mp hdropped
      rw [hpreserve] at hstays
      exact absurd (hstays.resolve_left Bool.false_ne_true) hunused
    · exact hkept
  · rw [blanked_statement_iff hclose hstands hmade hkind hg hspared hcode,
      span_mem_rangesFor_iff hstands hmade hkind hg hmarked]
    exact and_congr_right fun _ => forall₂_congr fun b hb => (hbinding b hb).symm
  · rw [hcode]
    refine kept_of_apart hclose fun r hr => (hspared.ranges r hr).resolve_left fun hr => ?_
    rw [rangesFor_eq_nil hg hmarked hbindings htypes] at hr
    cases hr

end

end Strip

open Strip

/-- Stripping drops a binding of an import statement exactly when its name is not used as a value
and imports are not preserved, and it drops the statement exactly when nothing that it bound is
left. -/
theorem stripTypes_elides {source : String} {path : Path} {options : TransformOptions}
    {out : Transformed} (h : stripTypes source path options = .ok out) :
    ∃ tree, Grammar.parse? (.ofPath path) source = some tree ∧
      ∀ t ∈ inTheOpen.outline tree, t.kind = .importStatement →
        Elides options.preservesImports (names (surveyed.outline tree)) source.toList
          out.code.toList t := by
  obtain ⟨tree, f, hparse, hsurvey, hcode⟩ := exists_survey_of_stripTypes h
  have hstands := Grammar.stands_of_parse? hparse
  have hmade := Grammar.made_of_parse? hparse
  refine ⟨tree, hparse, fun t ht hkind => ?_⟩
  have hmem := View.mem_preorder_of_mem_outline hmade ht
  obtain ⟨moves, hmoves⟩ := exists_moves_of_survey hstands hsurvey
  obtain ⟨g, hg, hspared⟩ : ∃ g, surveyImport t = .ok g ∧
      Spared options.preservesImports f.used f g t :=
    spared_of_survey hstands hmade hsurvey ht hkind
  have hmarked : isMarked t = false := by
    have hleft := View.leavesOut_of_mem_outline hmade ht
    have herased : isErased t = false := (Bool.or_eq_false_iff.mp hleft).1
    simpa [isErased, hkind, isTypeOnly, isTypeDeclaration] using herased
  rw [← ((answers_survey hmade).used f hsurvey).2]
  exact elides_of_spared hmoves.close (stands_of_mem_preorder hstands hmem).1
    (hmade.of_mem_preorder hmem) hkind hmarked hg hspared hcode

/-- Of a name and two in braces, the used one stays. -/
theorem stripTypes_elides_list :
    stripTypes "import a, \x7b b, c \x7d from './x';\nc();" ⟨"a.ts"⟩ {} =
        .ok ⟨"import    \x7b    c \x7d from './x';\nc();",
          .identity "a.ts" "import a, \x7b b, c \x7d from './x';\nc();"⟩ ∧
      ∃ tree, Grammar.parse? .typed "import a, \x7b b, c \x7d from './x';\nc();" = some tree ∧
        ∃ t ∈ inTheOpen.outline tree, t.kind = .importStatement ∧
          (bindings t).map Prod.snd = ["a", "b", "c"] ∧
          Elides false ["c"] "import a, \x7b b, c \x7d from './x';\nc();".toList
            "import    \x7b    c \x7d from './x';\nc();".toList t := by
  have h : stripTypes "import a, \x7b b, c \x7d from './x';\nc();" ⟨"a.ts"⟩ {} =
      .ok ⟨"import    \x7b    c \x7d from './x';\nc();",
        .identity "a.ts" "import a, \x7b b, c \x7d from './x';\nc();"⟩ := by
    rw [stripTypes_eq]
    decide +kernel
  obtain ⟨tree, hparse, helides⟩ := stripTypes_elides h
  have hstatement : (Grammar.parse? .typed "import a, \x7b b, c \x7d from './x';\nc();").any
      (fun tree => names (surveyed.outline tree) == ["c"] && (inTheOpen.outline tree).any fun t =>
        t.kind == .importStatement && (bindings t).map Prod.snd == ["a", "b", "c"]) = true := by
    decide +kernel
  rw [show Grammar.parse? .typed _ = some tree from hparse, Option.any_some, Bool.and_eq_true,
    beq_iff_eq] at hstatement
  obtain ⟨hused, hstatement⟩ := hstatement
  obtain ⟨t, ht, hfits⟩ := List.any_eq_true.mp hstatement
  rw [Bool.and_eq_true, beq_iff_eq, beq_iff_eq] at hfits
  exact ⟨h, tree, hparse, t, ht, hfits.1, hfits.2, hused ▸ helides t ht hfits.1⟩

/-- An import statement that stands in a declaration without a body goes along with it, whatever is
used elsewhere. -/
theorem not_forall_elides : ¬ ∀ (source : String) (path : Path) (options : TransformOptions)
    (out : Transformed), stripTypes source path options = .ok out →
      ∃ tree, Grammar.parse? (.ofPath path) source = some tree ∧
        ∀ t ∈ tree.preorder, t.kind = .importStatement → isMarked t = false →
          Elides options.preservesImports (names (inTheOpen.outline tree)) source.toList
            out.code.toList t := by
  intro h
  have hout : stripTypes "declare module 'm' \x7b import \x7b a \x7d from 'y'; \x7d\na();"
      ⟨"a.ts"⟩ {} = .ok ⟨"                                             \na();",
        .identity "a.ts" "declare module 'm' \x7b import \x7b a \x7d from 'y'; \x7d\na();"⟩ := by
    rw [stripTypes_eq]
    decide +kernel
  obtain ⟨tree, hparse, helides⟩ := h _ _ _ _ hout
  have hstatement : (Grammar.parse? (.ofPath ⟨"a.ts"⟩)
      "declare module 'm' \x7b import \x7b a \x7d from 'y'; \x7d\na();").any
      (fun tree => (names (inTheOpen.outline tree)).contains "a" && tree.preorder.any fun t =>
        t.kind == .importStatement && !isMarked t && (bindings t).any fun b =>
          b.2 == "a" && decide (Blanked
            "declare module 'm' \x7b import \x7b a \x7d from 'y'; \x7d\na();".toList
            "                                             \na();".toList b.1.span)) = true := by
    decide +kernel
  rw [hparse, Option.any_some, Bool.and_eq_true, List.contains_iff_mem] at hstatement
  obtain ⟨hused, hstatement⟩ := hstatement
  obtain ⟨t, ht, hfits⟩ := List.any_eq_true.mp hstatement
  simp only [Bool.and_eq_true, beq_iff_eq, Bool.not_eq_true', List.any_eq_true,
    decide_eq_true_eq] at hfits
  obtain ⟨⟨hkind, hmarked⟩, b, hb, hname, hblanked⟩ := hfits
  exact (((helides t ht hkind hmarked).binding b hb).mp hblanked).2 (hname ▸ hused)

end ScriptModules

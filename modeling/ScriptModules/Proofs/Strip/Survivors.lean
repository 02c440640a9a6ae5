import ScriptModules.Proofs.Grammar.Endings
import ScriptModules.Proofs.Strip.Blanking
import ScriptModules.Proofs.Strip.Reach

/-!
# Import statements that stay

An import statement that is not blanked as a whole keeps its parts, but for those of its clause
that go. The clause and the list in it have the shape that the grammar gives them afterwards, unless
a comma stays behind: one that comments keep apart from what goes before it, and one that stands
between a name that stays and a namespace that goes.
-/

namespace ScriptModules

namespace Strip

open Grammar (Forest Kind Ordered Shape Span Tree)

variable {goes goes' : Tree → Bool} {preserve : Bool} {used : List String} {source : List Char}
  {ranges : List Span} {t u v clause list : Tree} {ts : Forest} {f : Findings} {r : Span}
  {s : Shape}

/-- Trees of plain kinds have text. -/
theorem filled_of_plain (hstands : t.Stands source)
    (h : ∀ k ∈ Forest.kinds t.children, k.isPlain = true) : Filled t.children := by
  intro u hu hloose
  have hkind : u.kind ∈ Forest.kinds t.children :=
    List.mem_filter.mpr ⟨List.mem_map_of_mem hu, by simpa using hloose⟩
  obtain ⟨front, last, back, -, -, hstart, hstop⟩ := (hstands.of_mem hu).endsPlain (h _ hkind)
  have hsize := last.utf8Size_pos
  omega

/-- The parts of a clause have text. -/
theorem filled_of_importClause (hstands : t.Stands source) (hkind : t.kind = .importClause) :
    Filled t.children := by
  have hmem := (matches_importClause_iff rfl).mp (hstands.shape (hkind ▸ rfl))
  refine filled_of_plain hstands ?_
  simp only [List.mem_cons, List.not_mem_nil, or_false] at hmem
  rcases hmem with h | h | h | h | h <;> rw [h] <;> decide

/-- What follows a brace in a list of specifiers is plain. -/
theorem isPlain_of_specifiers {item : Kind} {ks : List Kind} (hitem : item.isSpecifier = true)
    (h : Specifiers item ks) : ∀ k ∈ ks, k.isPlain = true := by
  have hplain : item.isPlain = true := by
    rw [Kind.isSpecifier, Bool.or_eq_true, beq_iff_eq, beq_iff_eq] at hitem
    rcases hitem with rfl | rfl <;> rfl
  have hclose : (Kind.mark "\x7d").isPlain = true := rfl
  induction h with
  | close => exact List.forall_mem_singleton.mpr hclose
  | last => exact List.forall_mem_cons.mpr ⟨hplain, List.forall_mem_singleton.mpr hclose⟩
  | more h ih => exact List.forall_mem_cons.mpr ⟨hplain, List.forall_mem_cons.mpr ⟨rfl, ih⟩⟩

/-- The parts of a list of specifiers have text. -/
theorem filled_of_braced (item : Kind) (hitem : item.isSpecifier = true)
    (hstands : t.Stands source) (hs : .braced (.one item) ∈ t.kind.shape?) :
    Filled t.children := by
  obtain ⟨rest, hks, hrest⟩ := (matches_braced_iff item).mp (hstands.shape hs)
  refine filled_of_plain hstands ?_
  rw [hks]
  exact List.forall_mem_cons.mpr ⟨rfl, isPlain_of_specifiers hitem hrest⟩

/-- The parts of the list of an import clause have text. -/
theorem filled_of_namedImports (hstands : t.Stands source) (hkind : t.kind = .namedImports) :
    Filled t.children :=
  filled_of_braced .importSpecifier rfl hstands (hkind ▸ rfl)

/-- A range within one of some trees covers nothing in the others. -/
theorem not_covers_of_ne {low high : Nat} {w : Tree} (hordered : Ordered low high ts) (hu : u ∈ ts)
    (hw : w ∈ ts) (hne : u ≠ w) (hr : Within r w) (hv : Within v.span u)
    (hfilled : v.span.start < v.span.stop) : ¬ Covers r v := by
  rintro ⟨hstart, hstop⟩
  obtain ⟨hrstart, hrstop⟩ := hr
  obtain ⟨hvstart, hvstop⟩ := hv
  rcases hordered.apart hu hw hne with h | h <;> omega

/-- A list keeps its brace. -/
theorem not_covers_list (hgoes : ∀ u, goes' u = true → u.kind = .importSpecifier)
    (hstands : list.Stands source) (hlist : list.kind = .namedImports)
    (hr : r ∈ rangesOf goes' list.children) : ¬ Covers r list := by
  obtain ⟨u, next?, hmem, hu, rfl⟩ := mem_rangesOf.mp hr
  have hkind := hgoes u hu
  have hu := mem_of_mem_withNext hmem
  obtain ⟨rest, hks, -⟩ :=
    (matches_braced_iff .importSpecifier).mp (hstands.shape (hlist ▸ rfl))
  obtain ⟨front, brace, back, hchildren, hfront, hbrace, hloose, -⟩ := exists_of_kinds_eq_cons hks
  rw [← hbrace] at hloose
  have hmem' : brace ∈ list.children := by simp [hchildren]
  have hsize := filled_of_namedImports hstands hlist brace hmem' hloose
  have hordered := hstands.ordered
  have hstart := (hordered.of_mem hmem').1
  have hafter : brace.span.stop ≤ u.span.start := by
    rw [hchildren] at hu hordered
    rcases List.mem_append.mp hu with hu | hu
    · have := hfront u hu
      rw [hkind] at this
      cases this
    · rcases List.mem_cons.mp hu with rfl | hu
      · rw [hkind] at hbrace
        cases hbrace
      · exact hordered.le_of_append hu
  rintro ⟨hcovers, -⟩
  rw [start_partRange] at hcovers
  omega

section

variable (hgoes : ∀ u, goes u = true → u.kind = .identifier ∨ u.kind = .namespaceImport)
  (hgoes' : ∀ u, goes' u = true → u.kind = .importSpecifier) (hstands : clause.Stands source)
  (hkind : clause.kind = .importClause)

include hgoes' hstands hkind in
/-- The parts of a clause are covered as the clause has it. -/
theorem isCovered_clauseRanges (hv : v ∈ clause.children) (hloose : v.kind.isLoose = false) :
    isCovered (clauseRanges goes goes' clause) v =
      isCovered (rangesOf goes clause.children) v := by
  rw [Bool.eq_iff_iff, isCovered_iff, isCovered_iff]
  constructor
  · rintro ⟨r, hr, hcovers⟩
    rcases mem_clauseRanges.mp hr with hr | ⟨list, hlist, hlistKind, hr⟩
    · exact ⟨r, hr, hcovers⟩
    · have hstands' := hstands.of_mem hlist
      by_cases hne : v = list
      · subst hne
        exact absurd hcovers (not_covers_list hgoes' hstands' hlistKind hr)
      · have hsize := filled_of_importClause hstands hkind v hv hloose
        have hwithin := IsRow.within hstands' (exists_of_mem_rangesOf hr)
        exact absurd hcovers
          (not_covers_of_ne hstands.ordered hv hlist hne hwithin (covers_span v) hsize)
  · rintro ⟨r, hr, hcovers⟩
    exact ⟨r, mem_clauseRanges.mpr (.inl hr), hcovers⟩

include hgoes hstands hkind in
/-- The parts of a list are covered as the list has it. -/
theorem isCovered_clauseRanges_list (hlist : list ∈ clause.children)
    (hlistKind : list.kind = .namedImports) (hv : v ∈ list.children)
    (hloose : v.kind.isLoose = false) :
    isCovered (clauseRanges goes goes' clause) v =
      isCovered (rangesOf goes' list.children) v := by
  have hstands' := hstands.of_mem hlist
  have hsize := filled_of_namedImports hstands' hlistKind v hv hloose
  have hwithin := within_of_mem hstands'.ordered hv
  rw [Bool.eq_iff_iff, isCovered_iff, isCovered_iff]
  constructor
  · rintro ⟨r, hr, hcovers⟩
    rcases mem_clauseRanges.mp hr with hr | ⟨other, hother, -, hr⟩
    · -- a range of the clause would cover the list, which never goes
      have hkept : isCovered (rangesOf goes clause.children) list = false := by
        have hitem : isItem list = true := by simp [isItem, hlistKind, Kind.isLoose]
        rw [isCovered_rangesOf hstands.ordered (filled_of_importClause hstands hkind) hlist hitem,
          goes_list hgoes hlistKind]
      obtain ⟨w, hw, x, hx, rfl⟩ := exists_of_mem_rangesOf hr
      obtain ⟨hstart, hstop⟩ := hcovers
      obtain ⟨hvstart, hvstop⟩ := hwithin
      rcases respects_row hstands.ordered hlist hw hx with hcovers | h
      · rw [isCovered_iff.mpr ⟨_, hr, hcovers⟩] at hkept
        cases hkept
      · dsimp only at *
        omega
    · by_cases hne : list = other
      · exact ⟨r, hne ▸ hr, hcovers⟩
      · have hinside := IsRow.within (hstands.of_mem hother) (exists_of_mem_rangesOf hr)
        exact absurd hcovers
          (not_covers_of_ne hstands.ordered hlist hother hne hinside hwithin hsize)
  · rintro ⟨r, hr, hcovers⟩
    exact ⟨r, mem_clauseRanges.mpr (.inr ⟨list, hlist, hlistKind, hr⟩), hcovers⟩

end

/-- What is left of a construct when some ranges are blanked. Its parts stay or go as a whole, apart
from lists, and those that stay have the shape that the grammar gives the construct, unless a comma
stays behind. -/
structure PartsLeft (ranges : List Span) (t : Tree) : Prop where
  whole : ∀ u ∈ t.children, u.kind ≠ .namedImports → ∀ r ∈ ranges, Respects r u
  shape : ∀ s ∈ t.kind.shape?,
    (s.Matches (Forest.kinds (t.children.filter (!isCovered ranges ·))) ↔
      strandsComma (isCovered ranges) t.children = false ∧
        strandsName (isCovered ranges) t.children = false)

/-- What is left of an import statement when some ranges are blanked: all but parts of its clause
and of the lists in that. -/
structure ImportLeft (ranges : List Span) (t : Tree) : Prop where
  rest : ∀ u ∈ t.children, u.kind ≠ .importClause → ∀ r ∈ ranges,
    r.stop ≤ u.span.start ∨ u.span.stop ≤ r.start
  clause : ∀ clause ∈ t.child? .importClause, PartsLeft ranges clause ∧
    ∀ list ∈ clause.children, list.kind = .namedImports → PartsLeft ranges list

/-- Of an import statement goes nothing but given parts and given specifiers. -/
structure Loses (ranges : List Span) (t : Tree) (goes goes' : Tree → Bool) : Prop where
  part : ∀ u, goes u = true → u.kind = .identifier ∨ u.kind = .namespaceImport
  specifier : ∀ u, goes' u = true → u.kind = .importSpecifier
  stays : ∀ clause ∈ t.child? .importClause,
    ¬ ∀ u ∈ clause.children, isItem u = true → goes u = true
  apart : ∀ r ∈ ranges,
    (r.stop ≤ t.span.start ∨ t.span.stop ≤ r.start) ∨ r ∈ importRanges goes goes' t
  subset : importRanges goes goes' t ⊆ ranges

/-- A clause has the shape that the grammar gives it. -/
theorem shape_of_clause (hstands : t.Stands source)
    (hclause : t.child? .importClause = some clause) :
    ∃ s ∈ Kind.shape? .importClause, s.Matches (Forest.kinds clause.children) := by
  obtain ⟨hmem, hkind⟩ := mem_of_child? hclause
  exact ⟨_, rfl, (hstands.of_mem hmem).shape (hkind ▸ rfl)⟩

/-- A statement that does not go as a whole loses what a survey found there. -/
theorem loses_of_surveyImport (hstands : t.Stands source) (h : surveyImport t = .ok f)
    (hspan : t.span ∉ f.rangesFor preserve used) (hsubset : f.rangesFor preserve used ⊆ ranges)
    (hranges : ∀ r ∈ ranges, (r.stop ≤ t.span.start ∨ t.span.stop ≤ r.start) ∨
      r ∈ f.rangesFor preserve used) :
    Loses ranges t (partGoes preserve used) (specifierGoes preserve used) := by
  have hfound := (rangesFor_surveyImport h).resolve_left fun hwhole => hspan hwhole.1
  refine ⟨fun u => kind_of_partGoes, fun u => kind_of_specifierGoes, fun clause hclause hall => ?_,
    fun r hr => (hranges r hr).imp_right (hfound r).mp, fun r hr => hsubset ((hfound r).mpr hr)⟩
  obtain ⟨s, hs, hmatches⟩ := shape_of_clause hstands hclause
  exact hspan (span_mem_rangesFor h hclause hs hmatches hall)

/-- What a survey spares and no range covers is left alone by a range, unless that was found
there. -/
theorem apart_or_found (h : Spares preserve used source f t)
    (hleft : isCovered (f.rangesFor preserve used) t = false)
    (hr : r ∈ f.rangesFor preserve used) :
    (r.stop ≤ t.span.start ∨ t.span.stop ≤ r.start) ∨
      ∃ export? next? g, survey source export? next? t = .ok g ∧ r ∈ g.rangesFor preserve used ∧
        g.rangesFor preserve used ⊆ f.rangesFor preserve used := by
  refine (h r hr).imp_left fun hrespects => hrespects.resolve_left fun hcovers => ?_
  rw [isCovered_iff.mpr ⟨r, hr, hcovers⟩] at hleft
  cases hleft

/-- A statement that a survey spares and that is not covered loses parts and specifiers only. -/
theorem exists_loses (hstands : t.Stands source) (hkind : t.kind = .importStatement)
    (h : Spares preserve used source f t)
    (hleft : isCovered (f.rangesFor preserve used) t = false) :
    ∃ goes goes', Loses (f.rangesFor preserve used) t goes goes' := by
  by_cases hsurvey : ∃ g, surveyImport t = .ok g ∧
      g.rangesFor preserve used ⊆ f.rangesFor preserve used
  · obtain ⟨g, hg, hsub⟩ := hsurvey
    have hspan : t.span ∉ g.rangesFor preserve used := fun hmem => by
      rw [isCovered_iff.mpr ⟨_, hsub hmem, covers_span t⟩] at hleft
      cases hleft
    refine ⟨_, _, loses_of_surveyImport hstands hg hspan hsub fun r hr => ?_⟩
    refine (apart_or_found h hleft hr).imp_right ?_
    rintro ⟨_, _, g', hg', hr', -⟩
    rw [survey_of_importStatement hkind] at hg'
    obtain rfl := Except.ok.inj (hg.symm.trans hg')
    exact hr'
  · have hnone (r : Span) : r ∉ importRanges (fun _ => false) (fun _ => false) t := by
      intro hr
      obtain ⟨clause, -, hr⟩ := List.mem_flatMap.mp hr
      rcases mem_clauseRanges.mp hr with hr | ⟨list, -, -, hr⟩ <;>
        obtain ⟨_, _, -, hgone, -⟩ := mem_rangesOf.mp hr <;> cases hgone
    refine ⟨fun _ => false, fun _ => false, nofun, nofun, fun clause hclause hall => ?_,
      fun r hr => ?_, fun r hr => absurd hr (hnone r)⟩
    · obtain ⟨s, hs, hmatches⟩ := shape_of_clause hstands hclause
      obtain ⟨u, hu, hitem⟩ := exists_item hs hmatches
      cases hall u hu hitem
    · refine .inl ((apart_or_found h hleft hr).resolve_right ?_)
      rintro ⟨_, _, g, hg, -, hsub⟩
      rw [survey_of_importStatement hkind] at hg
      exact hsurvey ⟨g, hg, hsub⟩

/-- Inside a tree, ranges cover what those of them do that are not apart from the tree. -/
theorem isCovered_eq_of_apart {own : List Span} (hsubset : own ⊆ ranges)
    (hapart : ∀ r ∈ ranges, (r.stop ≤ t.span.start ∨ t.span.stop ≤ r.start) ∨ r ∈ own)
    (hwithin : Within v.span t) (hfilled : v.span.start < v.span.stop) :
    isCovered ranges v = isCovered own v := by
  obtain ⟨hstart, hstop⟩ := hwithin
  rw [Bool.eq_iff_iff, isCovered_iff, isCovered_iff]
  constructor
  · rintro ⟨r, hr, hcovers⟩
    rcases hapart r hr with hapart | hr
    · obtain ⟨hrstart, hrstop⟩ := hcovers
      omega
    · exact ⟨r, hr, hcovers⟩
  · rintro ⟨r, hr, hcovers⟩
    exact ⟨r, hsubset hr, hcovers⟩

/-- The parts that stay have the shape of the construct, when those that the construct itself keeps
have it. -/
theorem matches_left_iff (hstands : t.Stands source) (hfilled : Filled t.children)
    (hgoes : ∀ u, goes u = true → isItem u = true)
    (hcovered : ∀ u ∈ t.children, u.kind.isLoose = false →
      isCovered ranges u = isCovered (rangesOf goes t.children) u)
    (h : s.Matches (remains goes false t.children) ↔
      strandsComma goes t.children = false ∧ strandsName goes t.children = false) :
    s.Matches (Forest.kinds (t.children.filter (!isCovered ranges ·))) ↔
      strandsComma (isCovered ranges) t.children = false ∧
        strandsName (isCovered ranges) t.children = false := by
  have hitems : ∀ u ∈ t.children, isItem u = true → isCovered ranges u = goes u := by
    intro u hu hitem
    rw [hcovered u hu (isLoose_of_isItem hitem),
      isCovered_rangesOf hstands.ordered hfilled hu hitem]
  have hkinds : Forest.kinds (t.children.filter (!isCovered ranges ·)) =
      remains goes false t.children :=
    kinds_left hgoes hstands.ordered hfilled fun u hu hloose => by simp [hcovered u hu hloose]
  rw [hkinds, strandsComma_congr hitems, strandsName_congr hitems, h]

section

variable (hstands : t.Stands source) (h : Loses ranges t goes goes')

include hstands h

/-- What a clause of the statement has lost are its own ranges. -/
theorem isCovered_of_loses (hclause : t.child? .importClause = some clause)
    (hwithin : Within v.span clause) (hfilled : v.span.start < v.span.stop) :
    isCovered ranges v = isCovered (clauseRanges goes goes' clause) v := by
  have hranges : importRanges goes goes' t = clauseRanges goes goes' clause := by
    simp [importRanges, hclause]
  have hmem := (mem_of_child? hclause).1
  rw [← hranges]
  exact isCovered_eq_of_apart h.subset h.apart
    (hwithin.trans (within_of_mem hstands.ordered hmem)) hfilled

/-- What goes from a statement covers what is in its clause or leaves it alone, except for lists. -/
theorem respects_of_loses (hclause : t.child? .importClause = some clause) (hr : r ∈ ranges)
    (hv : v ∈ clause.children) (hu : u ∈ v.preorder) (hlist : u.kind ≠ .namedImports) :
    Respects r u := by
  have hmem := (mem_of_child? hclause).1
  have hstands' := hstands.of_mem hmem
  have hwithin := ((stands_of_mem_preorder (hstands'.of_mem hv) hu).2.trans
    (within_of_mem hstands'.ordered hv)).trans (within_of_mem hstands.ordered hmem)
  rcases h.apart r hr with hapart | hr
  · exact Respects.inside (.inr hapart) hwithin
  · obtain ⟨clause', hclause', hrow⟩ := exists_of_mem_importRanges hr
    obtain rfl := Option.some.inj (hclause.symm.trans hclause')
    exact hrow.respects hstands' hv hu hlist

/-- What is left of a clause has the shape of one, unless a comma is left behind. -/
theorem partsLeft_clause (hclause : t.child? .importClause = some clause) :
    PartsLeft ranges clause := by
  obtain ⟨hmem, hkind⟩ := mem_of_child? hclause
  have hstands' := hstands.of_mem hmem
  have hfilled := filled_of_importClause hstands' hkind
  refine ⟨fun u hu hlist r hr => respects_of_loses hstands h hclause hr hu
    (Tree.mem_preorder_iff.mpr (.inl rfl)) hlist, fun s hs => ?_⟩
  refine matches_left_iff hstands' hfilled (isItem_of_part h.part) (fun u hu hloose => ?_) ?_
  · rw [isCovered_of_loses hstands h hclause (within_of_mem hstands'.ordered hu)
      (hfilled u hu hloose), isCovered_clauseRanges h.specifier hstands' hkind hu hloose]
  · exact matches_remains_importClause (hkind ▸ hs) h.part (hstands'.shape hs)
      (h.stays clause hclause)

/-- What is left of a list has the shape of one, unless a comma is left behind. -/
theorem partsLeft_list (hclause : t.child? .importClause = some clause)
    (hlist : list ∈ clause.children) (hlistKind : list.kind = .namedImports) :
    PartsLeft ranges list := by
  obtain ⟨hmem, hkind⟩ := mem_of_child? hclause
  have hstands' := hstands.of_mem hmem
  have hstands'' := hstands'.of_mem hlist
  have hfilled := filled_of_namedImports hstands'' hlistKind
  refine ⟨fun u hu hkind r hr => respects_of_loses hstands h hclause hr hlist
    (Tree.mem_preorder_iff.mpr (.inr ⟨u, hu, Tree.mem_preorder_iff.mpr (.inl rfl)⟩)) hkind,
    fun s hs => ?_⟩
  refine matches_left_iff hstands'' hfilled (isItem_of_goes rfl h.specifier)
    (fun u hu hloose => ?_) ?_
  · rw [isCovered_of_loses hstands h hclause ((within_of_mem hstands''.ordered hu).trans
      (within_of_mem hstands'.ordered hlist)) (hfilled u hu hloose),
      isCovered_clauseRanges_list h.part hstands' hkind hlist hlistKind hu hloose]
  · rw [hlistKind] at hs
    obtain rfl := Option.some.inj hs
    exact matches_remains_braced rfl h.specifier (hstands''.shape (hlistKind ▸ rfl))

/-- An import statement that loses parts and specifiers only. -/
theorem importLeft_of_loses : ImportLeft ranges t where
  rest u hu hkind r hr := by
    obtain ⟨hstart, hstop⟩ := within_of_mem hstands.ordered hu
    rcases h.apart r hr with hapart | hr
    · omega
    · obtain ⟨clause, hclause, hrow⟩ := exists_of_mem_importRanges hr
      obtain ⟨hmem, hclauseKind⟩ := mem_of_child? hclause
      obtain ⟨hrstart, hrstop⟩ := hrow.within (hstands.of_mem hmem)
      have hne : u ≠ clause := by
        rintro rfl
        exact hkind hclauseKind
      rcases hstands.ordered.apart hu hmem hne with h | h <;> omega
  clause _ hclause := ⟨partsLeft_clause hstands h hclause,
    fun _ hlist hkind => partsLeft_list hstands h hclause hlist hkind⟩

end

/-- Of what a survey of a program found, every import statement of the program is left that is not
covered. -/
theorem importLeft_of_survey {tree : Tree} (hstands : tree.Stands source)
    (h : survey source none none tree = .ok f) (ht : t ∈ tree.preorder)
    (hkind : t.kind = .importStatement)
    (hleft : isCovered (f.rangesFor preserve used) t = false) :
    ImportLeft (f.rangesFor preserve used) t := by
  have hstands' := (stands_of_mem_preorder hstands ht).1
  have hspares : Spares preserve used source f t :=
    spares_of_survey hstands ⟨by simp, by simp⟩ h ht (by rw [hkind]; rfl)
  obtain ⟨goes, goes', hloses⟩ := exists_loses hstands' hkind hspares hleft
  exact importLeft_of_loses hstands' hloses

end Strip

end ScriptModules

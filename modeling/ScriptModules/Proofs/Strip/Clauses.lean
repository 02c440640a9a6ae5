import ScriptModules.Proofs.Strip.Outline
import ScriptModules.Proofs.Strip.Survivors

/-!
# Clauses that stay

An export clause that is not blanked as a whole loses the specifiers that are marked as types and
the commas behind them. So its list keeps the shape that the grammar gives it, as those of import
clauses do, unless a comment keeps a comma apart from what goes before it.
-/

namespace ScriptModules

namespace Strip

open Grammar (Forest Kind Shape Span Tree)

variable {preserve : Bool} {used : List String} {source : List Char} {export? : Option Span}
  {next? : Option Tree} {t u : Tree} {f : Findings} {r : Span}

/-- Whether a specifier of an export clause goes. -/
def exportGoes (t : Tree) : Bool := t.kind == .exportSpecifier && t.hasChild (.mark "type")

/-- Nothing goes from a token, but it may be a name. -/
theorem actionAt_of_isToken (h : t.kind.isToken = true) :
    actionAt source export? next? t = .record ⟨[], [t.text], [], []⟩ ∨
      actionAt source export? next? t = .descend {} := by
  cases hkind : t.kind <;> rw [hkind] at h <;> first
    | exact absurd h Bool.false_ne_true
    | simp [actionAt, hkind, isTypeOnly, isTypeDeclaration]

/-- At a token a survey finds no ranges. -/
theorem rangesFor_of_isToken (hmade : t.Made) (htoken : t.kind.isToken = true)
    (h : survey source export? next? t = .ok f) : f.rangesFor preserve used = [] := by
  rw [survey_eq, hmade.children_eq_nil htoken] at h
  rcases actionAt_of_isToken htoken with haction | haction <;> rw [haction] at h
  · obtain rfl := Except.ok.inj h
    rfl
  · obtain rfl := Except.ok.inj h
    rfl

/-- A specifier of an export clause goes with the comma behind it, or nothing of it goes. -/
theorem mem_rangesFor_exportSpecifier (hmade : t.Made) (hkind : t.kind = .exportSpecifier)
    (h : survey source export? next? t = .ok f) :
    r ∈ f.rangesFor preserve used ↔ exportGoes t = true ∧ partRange next? t = r := by
  have haction : actionAt source export? next? t =
      if t.hasChild (.mark "type") then .record (.ofBlanks [itemRange next? t])
      else .descend {} := by
    simp [actionAt, hkind, isTypeOnly, isTypeDeclaration]
  rw [survey_eq, haction] at h
  rw [exportGoes, hkind, partRange, if_neg (by simp [hkind])]
  cases hmarked : t.hasChild (.mark "type") with
  | true =>
    rw [hmarked] at h
    obtain rfl := Except.ok.inj h
    simp [Findings.rangesFor, Findings.ofBlanks, eq_comm]
  | false =>
    rw [hmarked] at h
    obtain ⟨rest, hrest, rfl⟩ := exists_of_map_eq_ok h
    refine iff_of_false (fun hr => ?_) (by simp)
    rcases mem_rangesFor_append.mp hr with hr | hr
    · cases hr
    · obtain ⟨u, next?, g, hmem, hg, hr, -⟩ := exists_survey_of_surveyAll hrest hr
      have hu := mem_of_mem_withNext hmem
      rw [rangesFor_of_isToken (hmade.of_mem hu)
        (hmade.isToken_of_mem (by rw [hkind]; rfl) hu) hg] at hr
      cases hr

/-- In an export clause stand specifiers and tokens. -/
theorem kind_of_mem_exportClause (hstands : t.Stands source) (hkind : t.kind = .exportClause)
    (hu : u ∈ t.children) : u.kind.isToken = true ∨ u.kind = .exportSpecifier := by
  cases hloose : u.kind.isLoose with
  | true => exact .inl (Kind.isToken_of_isLoose hloose)
  | false =>
    have hshape : (Shape.braced (.one .exportSpecifier)).Matches (Forest.kinds t.children) :=
      hstands.shape (hkind ▸ rfl)
    have hall := hshape.forall_of_all (p := fun k => k.isToken || k == .exportSpecifier) rfl
    have hmem : u.kind ∈ Forest.kinds t.children :=
      List.mem_filter.mpr ⟨List.mem_map_of_mem hu, by rw [hloose, Bool.not_false]⟩
    simpa using hall u.kind hmem

/-- From an export clause go the specifiers that are marked as types. -/
theorem mem_rangesFor_exportClause (hstands : t.Stands source) (hmade : t.Made)
    (hkind : t.kind = .exportClause) (h : survey source export? next? t = .ok f) :
    r ∈ f.rangesFor preserve used ↔ r ∈ rangesOf exportGoes t.children := by
  have haction : actionAt source export? next? t = .descend {} := by
    simp [actionAt, hkind, isTypeOnly, isTypeDeclaration]
  rw [survey_eq, haction] at h
  obtain ⟨rest, hrest, rfl⟩ := exists_of_map_eq_ok h
  rw [mem_rangesOf]
  constructor
  · intro hr
    rcases mem_rangesFor_append.mp hr with hr | hr
    · cases hr
    obtain ⟨u, next?, g, hmem, hg, hr, -⟩ := exists_survey_of_surveyAll hrest hr
    have hu := mem_of_mem_withNext hmem
    rcases kind_of_mem_exportClause hstands hkind hu with htoken | hspecifier
    · rw [rangesFor_of_isToken (hmade.of_mem hu) htoken hg] at hr
      cases hr
    · exact ⟨u, next?, hmem, (mem_rangesFor_exportSpecifier (hmade.of_mem hu) hspecifier hg).mp hr⟩
  · rintro ⟨u, next?, hmem, hgoes, hr⟩
    obtain ⟨g, hg, hsub⟩ := exists_survey_of_mem_withNext preserve used hrest hmem
    have hspecifier : u.kind = .exportSpecifier := by
      rw [exportGoes, Bool.and_eq_true, beq_iff_eq] at hgoes
      exact hgoes.1
    have hmade' := hmade.of_mem (mem_of_mem_withNext hmem)
    exact mem_rangesFor_append.mpr (.inr (hsub
      ((mem_rangesFor_exportSpecifier hmade' hspecifier hg).mpr ⟨hgoes, hr⟩)))

/-- Of an export clause that a survey spares and that is not covered go specifiers only. -/
theorem exists_goes_of_exportClause (hstands : t.Stands source) (hmade : t.Made)
    (hkind : t.kind = .exportClause) (h : Spares preserve used source f t)
    (hleft : isCovered (f.rangesFor preserve used) t = false) :
    ∃ goes : Tree → Bool, (∀ u, goes u = true → u.kind = .exportSpecifier) ∧
      rangesOf goes t.children ⊆ f.rangesFor preserve used ∧
        ∀ r ∈ f.rangesFor preserve used,
          (r.stop ≤ t.span.start ∨ t.span.stop ≤ r.start) ∨ r ∈ rangesOf goes t.children := by
  by_cases hsurvey : ∃ export? next? g, survey source export? next? t = .ok g ∧
      g.rangesFor preserve used ⊆ f.rangesFor preserve used
  · obtain ⟨_, _, g, hg, hsub⟩ := hsurvey
    refine ⟨exportGoes, fun u hu => ?_, fun r hr => ?_, fun r hr => ?_⟩
    · rw [exportGoes, Bool.and_eq_true, beq_iff_eq] at hu
      exact hu.1
    · exact hsub ((mem_rangesFor_exportClause hstands hmade hkind hg).mpr hr)
    · refine (apart_or_found h hleft hr).imp_right ?_
      rintro ⟨_, _, g', hg', hr', -⟩
      exact (mem_rangesFor_exportClause hstands hmade hkind hg').mp hr'
  · refine ⟨fun _ => false, nofun, fun r hr => ?_, fun r hr => ?_⟩
    · obtain ⟨_, _, -, hgone, -⟩ := mem_rangesOf.mp hr
      cases hgone
    · refine .inl ((apart_or_found h hleft hr).resolve_right ?_)
      rintro ⟨_, _, g, hg, -, hsub⟩
      exact hsurvey ⟨_, _, g, hg, hsub⟩

/-- What is left of an export clause has the shape of one, unless a comma is left behind. -/
theorem partsLeft_exportClause (hstands : t.Stands source) (hmade : t.Made)
    (hkind : t.kind = .exportClause) (h : Spares preserve used source f t)
    (hleft : isCovered (f.rangesFor preserve used) t = false) :
    PartsLeft (f.rangesFor preserve used) t := by
  obtain ⟨goes, hgoes, hsubset, hapart⟩ :=
    exists_goes_of_exportClause hstands hmade hkind h hleft
  have hfilled := filled_of_braced .exportSpecifier rfl hstands (hkind ▸ rfl)
  refine ⟨fun u hu _ r hr => ?_, fun s hs => ?_⟩
  · rcases hapart r hr with hapart | hr
    · exact Respects.inside (.inr hapart) (within_of_mem hstands.ordered hu)
    · exact IsRow.respects hstands (exists_of_mem_rangesOf hr) hu
        (Tree.mem_preorder_iff.mpr (.inl rfl))
  · rw [hkind] at hs
    obtain rfl := Option.some.inj hs
    refine matches_left_iff hstands hfilled (isItem_of_goes rfl hgoes) (fun u hu hloose => ?_)
      (matches_remains_braced rfl hgoes (hstands.shape (hkind ▸ rfl)))
    exact isCovered_eq_of_apart hsubset hapart (within_of_mem hstands.ordered hu)
      (hfilled u hu hloose)

/-- Of what a survey of a program found, every export clause of the program is left that is not
covered. -/
theorem partsLeft_of_survey {tree : Tree} (hstands : tree.Stands source) (hmade : tree.Made)
    (h : survey source none none tree = .ok f) (ht : t ∈ tree.preorder)
    (hkind : t.kind = .exportClause) (hleft : isCovered (f.rangesFor preserve used) t = false) :
    PartsLeft (f.rangesFor preserve used) t :=
  partsLeft_exportClause (stands_of_mem_preorder hstands ht).1 (hmade.of_mem_preorder ht) hkind
    (spares_of_survey hstands ⟨by simp, by simp⟩ h ht (by rw [hkind]; rfl)) hleft

end Strip

/-- Stripping blanks ranges of a program. Every import statement and every export clause of the
program that the ranges do not cover keeps its shape, unless they take what stands beside a comma
and leave that behind. -/
theorem stripTypes_clausesLeft {source : String} {path : Path} {options : TransformOptions}
    {out : Transformed} (h : stripTypes source path options = .ok out) :
    ∃ tree f, Grammar.parse? (.ofPath path) source = some tree ∧
      Strip.survey source.toList none none tree = .ok f ∧
      out.code.toList =
        Strip.blankRanges (f.ranges options.preservesImports) f.moved source.toList ∧
      ∀ t ∈ tree.preorder, Strip.isCovered (f.ranges options.preservesImports) t = false →
        (t.kind = .importStatement → Strip.ImportLeft (f.ranges options.preservesImports) t) ∧
          (t.kind = .exportClause → Strip.PartsLeft (f.ranges options.preservesImports) t) := by
  obtain ⟨tree, f, hparse, hsurvey, hcode⟩ := exists_survey_of_stripTypes h
  have hstands := Grammar.stands_of_parse? hparse
  refine ⟨tree, f, hparse, hsurvey, hcode, fun t ht hleft => ⟨fun hkind => ?_, fun hkind => ?_⟩⟩
  · exact Strip.importLeft_of_survey hstands hsurvey ht hkind hleft
  · exact Strip.partsLeft_of_survey hstands (Grammar.made_of_parse? hparse) hsurvey ht hkind hleft

/-- Of two names and a list a used one stays, and of two exports the one that is no type. -/
theorem stripTypes_clausesLeft_list :
    stripTypes "import a, \x7b b, c \x7d from './x';\nexport \x7b type d, c \x7d;" ⟨"a.ts"⟩ {} =
        .ok ⟨"import    \x7b    c \x7d from './x';\nexport \x7b         c \x7d;",
          .identity "a.ts" "import a, \x7b b, c \x7d from './x';\nexport \x7b type d, c \x7d;"⟩ ∧
      ∃ tree f, Grammar.parse? .typed
          "import a, \x7b b, c \x7d from './x';\nexport \x7b type d, c \x7d;" = some tree ∧
        Strip.survey "import a, \x7b b, c \x7d from './x';\nexport \x7b type d, c \x7d;".toList
          none none tree = .ok f ∧
        (∃ t ∈ tree.preorder, t.kind = .importStatement ∧ Strip.ImportLeft (f.ranges false) t) ∧
          ∃ t ∈ tree.preorder, t.kind = .exportClause ∧ Strip.PartsLeft (f.ranges false) t := by
  have h : stripTypes "import a, \x7b b, c \x7d from './x';\nexport \x7b type d, c \x7d;"
      ⟨"a.ts"⟩ {} =
      .ok ⟨"import    \x7b    c \x7d from './x';\nexport \x7b         c \x7d;",
        .identity "a.ts"
          "import a, \x7b b, c \x7d from './x';\nexport \x7b type d, c \x7d;"⟩ := by
    rw [stripTypes_eq]
    decide +kernel
  obtain ⟨tree, f, hparse, hsurvey, -, hleft⟩ := stripTypes_clausesLeft h
  have hstays (kind : Grammar.Kind) (hkind : kind = .importStatement ∨ kind = .exportClause) :
      (Grammar.parse? .typed
        "import a, \x7b b, c \x7d from './x';\nexport \x7b type d, c \x7d;").any (fun tree =>
        (Strip.survey "import a, \x7b b, c \x7d from './x';\nexport \x7b type d, c \x7d;".toList
          none none tree).toOption.any fun f => tree.preorder.any fun t =>
            t.kind == kind && !Strip.isCovered (f.ranges false) t) = true := by
    rcases hkind with rfl | rfl <;> decide +kernel
  rw [show Grammar.parse? .typed _ = some tree from hparse] at hstays
  simp only [Option.any_some, hsurvey, Except.toOption, List.any_eq_true, Bool.and_eq_true,
    beq_iff_eq, Bool.not_eq_true'] at hstays
  obtain ⟨t, ht, hkind, hstays'⟩ := hstays _ (.inl rfl)
  obtain ⟨u, hu, hkind', hstays''⟩ := hstays _ (.inr rfl)
  exact ⟨h, tree, f, hparse, hsurvey, ⟨t, ht, hkind, (hleft t ht hstays').1 hkind⟩,
    u, hu, hkind', (hleft u hu hstays'').2 hkind'⟩

/-- A name that stays keeps the comma before a namespace that goes, and what is left is no program
without types. -/
theorem not_forall_plain : ¬ ∀ (source : String) (path : Path) (options : TransformOptions)
    (out : Transformed), Grammar.Dialect.ofPath path = .typed →
      stripTypes source path options = .ok out → (Grammar.parse? .plain out.code).isSome := by
  intro h
  have hout : stripTypes "import a, * as ns from './x';\na();" ⟨"a.ts"⟩ {} =
      .ok ⟨"import a,         from './x';\na();",
        .identity "a.ts" "import a, * as ns from './x';\na();"⟩ := by
    rw [stripTypes_eq]
    decide +kernel
  have hsome := h _ ⟨"a.ts"⟩ {} _ (by decide) hout
  exact absurd hsome (by decide +kernel)

end ScriptModules

import Mathlib.Data.List.TakeWhile
import ScriptModules.Grammar.Rule

/-!
# Shapes of constructs

The kinds that stand next to one another in a construct are described by its rule, as far as that
does not leave them to another symbol. Comments may stand anywhere and are no part of a shape, and
neither are line ends.
-/

namespace ScriptModules.Grammar

/-- A description of the kinds that stand next to one another. -/
inductive Shape where
  | empty
  | one (kind : Kind)
  | seq (first second : Shape)
  | alt (first second : Shape)
  | many (part : Shape)
  deriving DecidableEq, Repr

namespace Shape

/-- Kinds that a shape describes. -/
inductive Matches : Shape → List Kind → Prop
  | empty : Matches .empty []
  | one (kind : Kind) : Matches (.one kind) [kind]
  | seq {a b : Shape} {ks ls : List Kind} (h : Matches a ks) (h' : Matches b ls) :
    Matches (.seq a b) (ks ++ ls)
  | left {a b : Shape} {ks : List Kind} (h : Matches a ks) : Matches (.alt a b) ks
  | right {a b : Shape} {ks : List Kind} (h : Matches b ks) : Matches (.alt a b) ks
  | none {a : Shape} : Matches (.many a) []
  | more {a : Shape} {ks ls : List Kind} (h : Matches (.many a) ks) (h' : Matches a ls) :
    Matches (.many a) (ks ++ ls)

section

variable {a b : Shape} {kind : Kind} {ks ls : List Kind}

/-- The empty shape describes no kinds. -/
theorem matches_empty_iff : Matches .empty ks ↔ ks = [] := by
  constructor
  · rintro ⟨⟩
    rfl
  · rintro rfl
    exact .empty

/-- The shape of one kind describes that kind. -/
theorem matches_one_iff : Matches (.one kind) ks ↔ ks = [kind] := by
  constructor
  · rintro ⟨⟩
    rfl
  · rintro rfl
    exact .one kind

/-- A sequence describes what its two parts describe one after the other. -/
theorem matches_seq_iff :
    Matches (.seq a b) ks ↔ ∃ first second, ks = first ++ second ∧ a.Matches first ∧
      b.Matches second := by
  constructor
  · rintro ⟨⟩
    exact ⟨_, _, rfl, ‹_›, ‹_›⟩
  · rintro ⟨first, second, rfl, ha, hb⟩
    exact .seq ha hb

/-- A choice describes what one of its parts describes. -/
theorem matches_alt_iff : Matches (.alt a b) ks ↔ a.Matches ks ∨ b.Matches ks := by
  constructor
  · rintro (⟨⟩ | ⟨⟩)
    · exact Or.inl ‹_›
    · exact Or.inr ‹_›
  · rintro (h | h)
    · exact .left h
    · exact .right h

/-- A repetition may start with a part as well as end with one. -/
theorem Matches.cons_many (h : a.Matches ks) (h' : Matches (.many a) ls) :
    Matches (.many a) (ks ++ ls) := by
  generalize hshape : Shape.many a = shape at h'
  induction h' with
  | none => simpa [hshape] using Matches.more (.none (a := a)) h
  | more hmany hpart ih =>
    obtain rfl := Shape.many.inj hshape
    rw [← List.append_assoc]
    exact .more (ih rfl) hpart
  | _ => cases hshape

end

/-- The shape of an optional part. -/
def opt (a : Shape) : Shape := .alt a .empty

/-- The shape of one or more parts with commas between them. -/
def commaList (a : Shape) : Shape := .seq a (.many (.seq (.one (.mark ",")) a))

/-- The shape of items in braces, with commas between them and perhaps one behind them. -/
def braced (a : Shape) : Shape :=
  .seq (.one (.mark "\x7b")) (.seq (opt (.seq (commaList a) (opt (.one (.mark ",")))))
    (.one (.mark "\x7d")))

end Shape

/-- Trees that have no place in a shape. -/
def Kind.isLoose : Kind → Bool
  | .comment | .lineEnd => true
  | _ => false

/-- The kinds of trees next to one another. -/
def Forest.kinds (forest : Forest) : List Kind :=
  (forest.map Tree.kind).filter (!·.isLoose)

@[simp] theorem Forest.kinds_append (a b : Forest) :
    Forest.kinds (a ++ b) = Forest.kinds a ++ Forest.kinds b := by
  simp [Forest.kinds]

theorem Forest.kinds_singleton (t : Tree) :
    Forest.kinds [t] = if t.kind.isLoose then [] else [t.kind] := by
  cases hloose : t.kind.isLoose <;> simp [Forest.kinds, hloose]

/-- The shape of what a token leaves. -/
def Terminal.shape : Terminal → Shape
  | .mark text _ | .tight text => .one (.mark text)
  | .keyword kind _ | .name kind _ | .lexeme kind _ _ => if kind.isLoose then .empty else .one kind
  | .lineEnd _ | .finish => .empty

/-- The shape of what a rule adds to what was read before, unless other symbols decide on it. -/
def Rule.shape? {σ : Type} : Rule σ → Option Shape
  | empty | check _ | peek _ | deny _ => some .empty
  | token t => some t.shape
  | symbol _ | absorb _ _ => none
  | seq a b => do return .seq (← a.shape?) (← b.shape?)
  | alt a b => do return .alt (← a.shape?) (← b.shape?)
  | many part => do return .many (← part.shape?)
  | group part => part.shape?
  | node kind _ => if kind.isLoose then some .empty else some (.one kind)

variable {σ : Type} {d : Dialect} {readSymbol : σ → Cursor → Outcome} {c after : Cursor}
  {left forest : Forest}

/-- Comments have no place in a shape. -/
theorem Cursor.kinds_skipTrivia (limit : Nat) (c : Cursor) :
    Forest.kinds (c.skipTrivia limit).1 = [] := by
  induction limit generalizing c with
  | zero => rfl
  | succ limit ih =>
    rw [skipTrivia]
    dsimp only
    split
    · rfl
    · simpa [Forest.kinds, Kind.isLoose, leaf, Tree.kind] using ih _

/-- A lexeme leaves one tree of its kind. -/
theorem Cursor.kinds_lexeme? {kind : Kind} {gap : Bool} {read? : List Char → Option Nat}
    (h : c.lexeme? kind gap read? = some (forest, after)) :
    Forest.kinds forest = if kind.isLoose then [] else [kind] := by
  unfold lexeme? at h
  have hcomments : Forest.kinds (if gap = true then c.toToken else ([], c)).1 = [] := by
    split
    · exact kinds_skipTrivia _ _
    · rfl
  dsimp only at h
  obtain ⟨n, -, heq⟩ := Option.map_eq_some_iff.mp h
  obtain ⟨rfl, -⟩ := Prod.mk.inj heq
  rw [Forest.kinds_append, hcomments, List.nil_append, Forest.kinds_singleton]
  rfl

/-- A line end has no place in a shape. -/
theorem Cursor.kinds_lineEnd? {setting : LineEnd.Setting} {limit : Nat}
    (h : c.lineEnd? d setting limit = some (forest, after)) : Forest.kinds forest = [] := by
  induction limit generalizing c forest after with
  | zero => cases h
  | succ limit ih =>
    rw [lineEnd?] at h
    split at h
    · obtain ⟨rfl, -⟩ := Prod.mk.inj (Option.some.inj h)
      rfl
    · dsimp only at h
      split at h
      · cases h
      · obtain ⟨⟨more, last⟩, hmore, heq⟩ := Option.map_eq_some_iff.mp h
        obtain ⟨rfl, -⟩ := Prod.mk.inj heq
        simpa [Forest.kinds, Kind.isLoose, leaf, Tree.kind] using ih hmore

/-- A token leaves what its shape describes. -/
theorem Terminal.matches_shape {t : Terminal} (h : t.read? d c = some (forest, after)) :
    t.shape.Matches (Forest.kinds forest) := by
  have hone {kind : Kind} (hkinds : Forest.kinds forest = if kind.isLoose then [] else [kind]) :
      (if kind.isLoose then Shape.empty else .one kind).Matches (Forest.kinds forest) := by
    rw [hkinds]
    cases kind.isLoose
    · exact .one kind
    · exact .empty
  cases t with
  | mark text longer =>
    rw [read?] at h
    exact hone (Cursor.kinds_lexeme? h)
  | tight text =>
    rw [read?] at h
    exact hone (Cursor.kinds_lexeme? h)
  | keyword kind text =>
    rw [read?] at h
    exact hone (Cursor.kinds_lexeme? h)
  | name kind reserved =>
    rw [read?] at h
    exact hone (Cursor.kinds_lexeme? h)
  | lexeme kind gap form =>
    rw [read?] at h
    exact hone (Cursor.kinds_lexeme? h)
  | lineEnd setting =>
    rw [Cursor.kinds_lineEnd? h]
    exact .empty
  | finish =>
    rw [read?] at h
    dsimp only at h
    split at h
    · obtain ⟨rfl, -⟩ := Prod.mk.inj (Option.some.inj h)
      rw [Cursor.toToken, Cursor.kinds_skipTrivia]
      exact .empty
    · cases h

/-- What a step keeps is kept by repeating it. -/
theorem repeatStep_induct (step : Forest → Cursor → Outcome) {motive : Forest → Cursor → Prop}
    (hstep : ∀ left c forest after, motive left c → step left c = some (forest, after) →
      motive forest after) (limit : Nat) (h : motive left c) :
    motive (repeatStep step limit left c).1 (repeatStep step limit left c).2 := by
  induction limit generalizing left c with
  | zero => exact h
  | succ limit ih =>
    rw [repeatStep]
    split
    · exact h
    · rename_i forest after hread
      split
      · exact h
      · exact ih (hstep left c forest after h hread)

/-- Comments at the front have no place in a shape. -/
theorem Forest.kinds_takeWhile_isComment (forest : Forest) :
    Forest.kinds (forest.takeWhile Tree.isComment) = [] := by
  rw [Forest.kinds, List.filter_eq_nil_iff]
  intro k hk
  obtain ⟨t, ht, rfl⟩ := List.mem_map.mp hk
  have hcomment := List.mem_takeWhile_imp ht
  rw [Tree.isComment, beq_iff_eq] at hcomment
  simp [hcomment, Kind.isLoose]

/-- Trees that are gathered become one of the given kind. -/
theorem Forest.kinds_gather {kind : Kind} (offset : Nat) (forest : Forest) :
    Forest.kinds (Forest.gather kind offset forest) = if kind.isLoose then [] else [kind] := by
  rw [gather, Forest.kinds_append, kinds_takeWhile_isComment, List.nil_append,
    Forest.kinds_singleton]
  rfl

/-- What is gathered under a node are trees of the same kinds. -/
theorem Forest.kinds_body (forest : Forest) :
    Forest.kinds ((forest.dropWhile Tree.isComment).filter (·.kind != .lineEnd)) =
      Forest.kinds forest := by
  have hloose (forest : Forest) :
      Forest.kinds (forest.filter (·.kind != .lineEnd)) = Forest.kinds forest := by
    rw [Forest.kinds, Forest.kinds, List.filter_map, List.filter_map, List.filter_filter]
    congr 2
    funext t
    simp only [Function.comp_apply]
    cases t.kind <;> simp [Kind.isLoose]
  have hsplit : forest.takeWhile Tree.isComment ++ forest.dropWhile Tree.isComment = forest :=
    List.takeWhile_append_dropWhile
  have hkinds := congrArg Forest.kinds hsplit
  rw [Forest.kinds_append, kinds_takeWhile_isComment, List.nil_append] at hkinds
  rw [hloose, hkinds]

/-- What a rule adds has the shape of the rule. -/
theorem Rule.matches_shape? {r : Rule σ} {s : Shape} (hshape : r.shape? = some s)
    (h : r.read d readSymbol left c = some (forest, after)) :
    ∃ new, forest = left ++ new ∧ s.Matches (Forest.kinds new) := by
  induction r generalizing s left c forest after with
  | empty =>
    obtain rfl := Option.some.inj hshape
    obtain ⟨rfl, -⟩ := Prod.mk.inj (Option.some.inj h)
    exact ⟨[], (List.append_nil _).symm, .empty⟩
  | token t =>
    obtain rfl := Option.some.inj hshape
    obtain ⟨⟨new, last⟩, hread, heq⟩ := Option.map_eq_some_iff.mp h
    obtain ⟨rfl, -⟩ := Prod.mk.inj heq
    exact ⟨new, rfl, Terminal.matches_shape hread⟩
  | symbol => cases hshape
  | absorb => cases hshape
  | seq a b iha ihb =>
    obtain ⟨sa, ha, hshape⟩ := Option.bind_eq_some_iff.mp hshape
    obtain ⟨sb, hb, hshape⟩ := Option.bind_eq_some_iff.mp hshape
    obtain rfl := Option.some.inj hshape
    rw [read] at h
    split at h
    · cases h
    · rename_i between mid hfirst
      obtain ⟨new, rfl, hnew⟩ := iha ha hfirst
      obtain ⟨more, rfl, hmore⟩ := ihb hb h
      refine ⟨new ++ more, List.append_assoc .., ?_⟩
      rw [Forest.kinds_append]
      exact .seq hnew hmore
  | alt a b iha ihb =>
    obtain ⟨sa, ha, hshape⟩ := Option.bind_eq_some_iff.mp hshape
    obtain ⟨sb, hb, hshape⟩ := Option.bind_eq_some_iff.mp hshape
    obtain rfl := Option.some.inj hshape
    rw [read] at h
    split at h
    · obtain ⟨new, hforest, hnew⟩ := ihb hb h
      exact ⟨new, hforest, .right hnew⟩
    · obtain ⟨new, hforest, hnew⟩ := iha ha h
      exact ⟨new, hforest, .left hnew⟩
  | many part ih =>
    obtain ⟨sp, hp, hshape⟩ := Option.bind_eq_some_iff.mp hshape
    obtain rfl := Option.some.inj hshape
    have hrun := repeatStep_induct (part.read d readSymbol)
      (motive := fun forest _ => ∃ new, forest = left ++ new ∧
        (Shape.many sp).Matches (Forest.kinds new))
      (fun before c forest after ⟨new, hbefore, hnew⟩ hread => by
        obtain ⟨more, rfl, hmore⟩ := ih hp hread
        refine ⟨new ++ more, by rw [hbefore, List.append_assoc], ?_⟩
        rw [Forest.kinds_append]
        exact .more hnew hmore)
      (c.size + 1) (c := c) ⟨[], (List.append_nil _).symm, .none⟩
    rw [read] at h
    rw [Option.some.inj h] at hrun
    exact hrun
  | group part ih =>
    obtain ⟨⟨new, last⟩, hread, heq⟩ := Option.map_eq_some_iff.mp h
    obtain ⟨rfl, -⟩ := Prod.mk.inj heq
    obtain ⟨new', hnew, hmatches⟩ := ih hshape hread
    rw [List.nil_append] at hnew
    exact ⟨new, rfl, hnew ▸ hmatches⟩
  | node kind part ih =>
    obtain ⟨⟨new, last⟩, hread, heq⟩ := Option.map_eq_some_iff.mp h
    obtain ⟨rfl, -⟩ := Prod.mk.inj heq
    refine ⟨_, rfl, ?_⟩
    rw [Forest.kinds_gather]
    rw [shape?] at hshape
    cases hloose : kind.isLoose <;> rw [hloose] at hshape <;> obtain rfl := Option.some.inj hshape
    · exact .one kind
    · exact .empty
  | check accepts =>
    obtain rfl := Option.some.inj hshape
    rw [read] at h
    split at h
    · obtain ⟨rfl, -⟩ := Prod.mk.inj (Option.some.inj h)
      exact ⟨[], (List.append_nil _).symm, .empty⟩
    · cases h
  | peek part =>
    obtain rfl := Option.some.inj hshape
    obtain ⟨-, -, heq⟩ := Option.map_eq_some_iff.mp h
    obtain ⟨rfl, -⟩ := Prod.mk.inj heq
    exact ⟨[], (List.append_nil _).symm, .empty⟩
  | deny part =>
    obtain rfl := Option.some.inj hshape
    rw [read] at h
    split at h
    · obtain ⟨rfl, -⟩ := Prod.mk.inj (Option.some.inj h)
      exact ⟨[], (List.append_nil _).symm, .empty⟩
    · cases h

end ScriptModules.Grammar

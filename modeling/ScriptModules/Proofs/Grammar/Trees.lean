import ScriptModules.Proofs.Grammar.Places
import ScriptModules.Proofs.Grammar.Shapes

/-!
# Trees of a program

The trees of a program stand one after the other, each inside the one around it. Parameters end
with their parenthesis, the constructs that bind what is imported or list what is exported have the
shape that the grammar gives them, and no name, list or annotation of a result ends with a line
break.
-/

namespace ScriptModules.Grammar

open Text (bytesOf isBreak)

namespace Tree

theorem preorderAll_append (ts us : Forest) :
    preorderAll (ts ++ us) = preorderAll ts ++ preorderAll us := by
  induction ts with
  | nil => rfl
  | cons t ts ih => simp [preorderAll, ih]

/-- The trees of a tree are the tree itself and those of its children. -/
theorem preorder_eq (t : Tree) : t.preorder = t :: preorderAll t.children := by
  cases t <;> rfl

theorem preorderAll_singleton (t : Tree) : preorderAll [t] = t.preorder := List.append_nil _

/-- What is in a row of trees is in one of them. -/
theorem mem_preorderAll_iff {ts : Forest} {u : Tree} :
    u ∈ preorderAll ts ↔ ∃ v ∈ ts, u ∈ v.preorder := by
  induction ts with
  | nil => simp [preorderAll]
  | cons v ts ih => simp [preorderAll, ih]

/-- What is in a tree is the tree itself or in one of its children. -/
theorem mem_preorder_iff {t u : Tree} :
    u ∈ t.preorder ↔ u = t ∨ ∃ v ∈ t.children, u ∈ v.preorder := by
  rw [preorder_eq, List.mem_cons, mem_preorderAll_iff]

end Tree

/-- What a function says about its result. -/
def Kind.isResult (kind : Kind) : Bool :=
  kind == .typeAscription || kind == .predicateAscription || kind == .assertsAscription

/-- The shapes of the constructs that bind what is imported and list what is exported. -/
def Kind.shape? : Kind → Option Shape
  | .importClause =>
    let bound : Shape := .alt (.one .namespaceImport) (.one .namedImports)
    some (.alt (.one .namespaceImport) (.alt (.one .namedImports)
      (.seq (.one .identifier) (.opt (.seq (.one (.mark ",")) bound)))))
  | .namedImports => some (.braced (.one .importSpecifier))
  | .exportClause => some (.braced (.one .exportSpecifier))
  | _ => none

/-- The items of the lists in braces that import and export. -/
def Kind.isSpecifier (kind : Kind) : Bool := kind == .importSpecifier || kind == .exportSpecifier

/-- Constructs that are no tokens, and of which the parts are known. -/
def Kind.isDetailed (kind : Kind) : Bool := kind == .parameters || kind.shape?.isSome

/-- Trees of which the text ends with a character that is no line break. -/
def Kind.isPlain (kind : Kind) : Bool :=
  kind.isResult || [.identifier, .mark ",", .mark "\x7b", .mark "\x7d", .namespaceImport,
    .namedImports, .importSpecifier, .exportSpecifier].contains kind

/-- The text of a tree ends with a character that is no line break. -/
def Tree.EndsPlain (src : List Char) (t : Tree) : Prop :=
  ∃ front last back, src = front ++ last :: back ∧ isBreak last = false ∧
    t.span.start ≤ bytesOf front ∧ t.span.stop = bytesOf front + last.utf8Size

/-- A tree ends plainly if the piece that it covers does. -/
theorem Slice.endsPlain {src piece : List Char} {t : Tree} (h : Slice src t.span piece)
    (hplain : Lexeme.EndsPlain piece) : t.EndsPlain src := by
  obtain ⟨last, hlast, hbreak⟩ := hplain
  obtain ⟨front, back, rfl, hstart, hstop⟩ := h
  obtain ⟨piece, rfl⟩ := List.getLast?_eq_some_iff.mp hlast
  refine ⟨front ++ piece, last, back, by simp, hbreak, ?_, ?_⟩
  · exact hstart.trans_le (by simp)
  · exact hstop.trans (by simp [Nat.add_assoc])

/-- A closing parenthesis. -/
def Tree.IsClose (t : Tree) : Prop := ∃ span, t = .leaf (.mark ")") span ")"

/-- What is known of a construct of a kind by where it stands and by the trees that it is made
of. -/
structure Detail (src : List Char) (kind : Kind) (span : Span) (children : Forest) : Prop where
  stops : Text.IsOffset src span.stop
  closed : kind = .parameters →
    ∃ close ∈ children.getLast?, close.IsClose ∧ close.span.stop = span.stop
  shape : ∀ s ∈ kind.shape?, s.Matches (Forest.kinds children)

/-- A tree in its place in a text. -/
inductive Tree.Stands (src : List Char) : Tree → Prop
  | leaf {kind : Kind} {span : Span} {text : String} (hslice : Slice src span text.toList)
    (hplain : kind.isPlain = true → (Tree.leaf kind span text).EndsPlain src)
    (hkind : kind.isDetailed = false) : Stands src (.leaf kind span text)
  | node {kind : Kind} {span : Span} {children : Forest}
    (hordered : Ordered span.start span.stop children) (hchildren : ∀ t ∈ children, Stands src t)
    (hplain : kind.isPlain = true → (Tree.node kind span children).EndsPlain src)
    (hdetail : Detail src kind span children) : Stands src (.node kind span children)

namespace Tree.Stands

variable {src : List Char} {t : Tree}

/-- The children of a tree in its place are in order. -/
theorem ordered (h : t.Stands src) : Ordered t.span.start t.span.stop t.children := by
  cases h with
  | @leaf kind span text hslice =>
    obtain ⟨front, back, -, hstart, hstop⟩ := hslice
    change span.start ≤ span.stop
    rw [hstart, hstop, Text.bytesOf_append]
    exact Nat.le_add_right _ _
  | node hordered => exact hordered

/-- The children of a tree in its place are in their places. -/
theorem of_mem (h : t.Stands src) {u : Tree} (hu : u ∈ t.children) : u.Stands src := by
  cases h with
  | leaf => cases hu
  | node _ hchildren => exact hchildren u hu

/-- What is below a tree stands in its place too. -/
theorem of_mem_preorder (h : t.Stands src) {u : Tree} (hu : u ∈ t.preorder) : u.Stands src := by
  induction h with
  | leaf hslice hplain hkind =>
    obtain rfl := List.mem_singleton.mp hu
    exact .leaf hslice hplain hkind
  | node hordered hchildren hplain hdetail ih =>
    rcases mem_preorder_iff.mp hu with rfl | ⟨v, hv, hu⟩
    · exact .node hordered hchildren hplain hdetail
    · exact ih v hv hu

/-- A tree stops between two characters. -/
theorem isOffset_stop (h : t.Stands src) : Text.IsOffset src t.span.stop := by
  cases h with
  | leaf hslice =>
    obtain ⟨front, back, rfl, -, hstop⟩ := hslice
    exact ⟨_, back, rfl, hstop⟩
  | node _ _ _ hdetail => exact hdetail.stops

/-- The text of a plain tree in its place ends with no line break. -/
theorem endsPlain (h : t.Stands src) (hkind : t.kind.isPlain = true) : t.EndsPlain src := by
  cases h with
  | leaf _ hplain => exact hplain hkind
  | node _ _ hplain => exact hplain hkind

/-- A construct in its place has the shape of its kind. -/
theorem shape (h : t.Stands src) {s : Shape} (hs : s ∈ t.kind.shape?) :
    s.Matches (Forest.kinds t.children) := by
  cases h with
  | @leaf kind span text _ _ hkind =>
    rw [Kind.isDetailed, Bool.or_eq_false_iff, Option.isSome_eq_false_iff,
      Option.isNone_iff_eq_none] at hkind
    rw [Tree.kind, hkind.2] at hs
    cases hs
  | node _ _ _ hdetail => exact hdetail.shape s hs

end Tree.Stands

end ScriptModules.Grammar

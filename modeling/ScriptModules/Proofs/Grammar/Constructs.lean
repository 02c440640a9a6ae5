import ScriptModules.Grammar.Recovery
import ScriptModules.Proofs.Grammar.Endings

/-!
# Tokens and constructs

A kind is one of a token or one of a construct, never both. The constructs that are made of
keywords alone are worded in few ways, specifiers are made of tokens, and names and marks never
start with a blank. The grammar says so rule by rule, and then it holds of every tree of a program.
So a program uses the syntax of modules when it is written as a module, and also when it asks
whether a function was called with `new`, which a script may do as well.
-/

namespace ScriptModules.Grammar

/-- Kinds of tokens. All other kinds are those of constructs. -/
def Kind.isToken : Kind → Bool
  | .mark _ | .comment | .lineEnd | .hashbang | .identifier | .propertyName | .privateName
  | .typeName | .labelName | .shorthand | .shorthandPattern | .number | .string | .regex
  | .templateText | .undefined | .markupText => true
  | _ => false

/-- The shape of two keywords with a dot between them. -/
def Shape.dotted (first last : String) : Shape :=
  .seq (.one (.mark first)) (.seq (.one (.mark ".")) (.one (.mark last)))

/-- The shapes of the constructs that are made of keywords alone. -/
def Kind.wording? : Kind → Option Shape
  | .metaProperty => some (.alt (.dotted "import" "meta") (.dotted "new" "target"))
  | .accessibility =>
    some (.alt (.one (.mark "public")) (.alt (.one (.mark "private")) (.one (.mark "protected"))))
  | .overriding => some (.one (.mark "override"))
  | _ => none

/-- The keywords that constructs open with, as far as they matter here. -/
def Kind.opening? : Kind → Option Kind
  | .importStatement => some (.mark "import")
  | _ => none

/-- Kinds of tokens that start with a visible character. -/
def Kind.isVisible : Kind → Bool
  | .mark _ | .identifier | .string => true
  | _ => false

/-- No token is worded. -/
theorem Kind.wording?_of_isToken {kind : Kind} (h : kind.isToken = true) :
    kind.wording? = none := by
  cases kind <;> first | rfl | cases h

/-- No token opens with a keyword. -/
theorem Kind.opening?_of_isToken {kind : Kind} (h : kind.isToken = true) :
    kind.opening? = none := by
  cases kind <;> first | rfl | cases h

/-- Comments and line ends are tokens. -/
theorem Kind.isToken_of_isLoose {kind : Kind} (h : kind.isLoose = true) :
    kind.isToken = true := by
  cases kind <;> first | rfl | cases h

/-- Whether a shape starts with a kind. -/
def Shape.opens (kind : Kind) : Shape → Bool
  | .one first => first == kind
  | .seq first _ => first.opens kind
  | _ => false

/-- What a shape opens with is among the kinds of that shape. -/
theorem Shape.Matches.mem_of_opens {s : Shape} {kind : Kind} {ks : List Kind} (h : s.Matches ks)
    (hopens : s.opens kind = true) : kind ∈ ks := by
  induction h with
  | one first => exact List.mem_singleton.mpr (beq_iff_eq.mp hopens).symm
  | seq _ _ ih _ => exact List.mem_append_left _ (ih hopens)
  | _ => cases hopens

/-- Whether all kinds of a shape are of some sort. -/
def Shape.all (p : Kind → Bool) : Shape → Bool
  | .empty => true
  | .one kind => p kind
  | .seq first second | .alt first second => first.all p && second.all p
  | .many part => part.all p

/-- The kinds that a shape describes are kinds of that shape. -/
theorem Shape.Matches.forall_of_all {s : Shape} {p : Kind → Bool} {ks : List Kind}
    (h : s.Matches ks) (hall : s.all p = true) : ∀ k ∈ ks, p k = true := by
  induction h with
  | empty | none => nofun
  | one kind => exact List.forall_mem_singleton.mpr hall
  | seq _ _ ih ih' =>
    obtain ⟨hfirst, hsecond⟩ := Bool.and_eq_true_iff.mp hall
    exact List.forall_mem_append.mpr ⟨ih hfirst, ih' hsecond⟩
  | left _ ih => exact ih (Bool.and_eq_true_iff.mp hall).1
  | right _ ih => exact ih (Bool.and_eq_true_iff.mp hall).2
  | more _ _ ih ih' => exact List.forall_mem_append.mpr ⟨ih hall, ih' hall⟩

/-- What a construct of a kind is made of: the keywords that it is worded in, the one that it opens
with, and tokens alone in a specifier. -/
structure Worded (kind : Kind) (children : Forest) : Prop where
  wording : ∀ s ∈ kind.wording?, s.Matches (Forest.kinds children)
  opening : ∀ k ∈ kind.opening?, k ∈ Forest.kinds children
  tokens : kind.isSpecifier = true → ∀ k ∈ Forest.kinds children, k.isToken = true

/-- A tree that is a token or a construct according to its kind, all the way down. -/
inductive Tree.Made : Tree → Prop
  | leaf {kind : Kind} {span : Span} {text : String} (hkind : kind.isToken = true)
    (hvisible : kind.isVisible = true → Lexeme.BeginsVisible text.toList) :
    Made (.leaf kind span text)
  | node {kind : Kind} {span : Span} {children : Forest} (hkind : kind.isToken = false)
    (hchildren : ∀ t ∈ children, Made t) (hworded : Worded kind children) :
    Made (.node kind span children)

namespace Tree.Made

variable {t u : Tree}

/-- The children of a tree that is made as its kind asks are so as well. -/
theorem of_mem (h : t.Made) (hu : u ∈ t.children) : u.Made := by
  cases h with
  | leaf => cases hu
  | node _ hchildren => exact hchildren u hu

/-- A token has no parts. -/
theorem children_eq_nil (h : t.Made) (hkind : t.kind.isToken = true) : t.children = [] := by
  cases h with
  | leaf => rfl
  | node hkind' =>
    rw [Tree.kind, hkind'] at hkind
    cases hkind

/-- What is below a tree is made in the same way. -/
theorem of_mem_preorder (h : t.Made) (hu : u ∈ t.preorder) : u.Made := by
  induction h with
  | leaf hkind hvisible =>
    obtain rfl := List.mem_singleton.mp hu
    exact .leaf hkind hvisible
  | node hkind hchildren hworded ih =>
    rcases mem_preorder_iff.mp hu with rfl | ⟨v, hv, hu⟩
    · exact .node hkind hchildren hworded
    · exact ih v hv hu

/-- A construct that is made of keywords alone has their shape. -/
theorem wording (h : t.Made) {s : Shape} (hs : s ∈ t.kind.wording?) :
    s.Matches (Forest.kinds t.children) := by
  cases h with
  | leaf hkind =>
    rw [Tree.kind, Kind.wording?_of_isToken hkind] at hs
    cases hs
  | node _ _ hworded => exact hworded.wording s hs

/-- A construct that opens with a keyword holds it. -/
theorem exists_opening (h : t.Made) {k : Kind} (hk : k ∈ t.kind.opening?) :
    ∃ u ∈ t.children, u.kind = k := by
  cases h with
  | leaf hkind =>
    rw [Tree.kind, Kind.opening?_of_isToken hkind] at hk
    cases hk
  | node _ _ hworded =>
    obtain ⟨u, hu, rfl⟩ := List.mem_map.mp (List.mem_filter.mp (hworded.opening k hk)).1
    exact ⟨u, hu, rfl⟩

/-- A specifier is made of tokens. -/
theorem isToken_of_mem (h : t.Made) (hkind : t.kind.isSpecifier = true) (hu : u ∈ t.children) :
    u.kind.isToken = true := by
  cases h with
  | leaf => cases hu
  | node _ _ hworded =>
    cases hloose : u.kind.isLoose with
    | true => exact Kind.isToken_of_isLoose hloose
    | false =>
      refine hworded.tokens hkind u.kind (List.mem_filter.mpr ⟨List.mem_map_of_mem hu, ?_⟩)
      rw [hloose, Bool.not_false]

end Tree.Made

/-- Whether a word starts with a character other than a space or a line break. -/
def isVisibleWord (text : String) : Bool :=
  text.toList.head?.any fun c => c != ' ' && !Text.isBreak c

/-- Forms that start with a visible character. -/
def Form.isVisible (form : Form) : Bool :=
  [Form.string, .hyphenName, .markupString, .conditionalMark].contains form

/-- Whether the tree that a token leaves has a kind of tokens, and starts visibly where it must. -/
def Terminal.isWorded : Terminal → Bool
  | .mark text _ | .tight text => isVisibleWord text
  | .keyword kind text => kind.isToken && (!kind.isVisible || isVisibleWord text)
  | .name kind _ => kind.isToken
  | .lexeme kind _ form => kind.isToken && (!kind.isVisible || form.isVisible)
  | .lineEnd _ | .finish => true

/-- Whether what a rule reads are tokens and constructs according to their kinds. -/
def Rule.isWorded {σ : Type} : Rule σ → Bool
  | empty | symbol _ | check _ | peek _ | deny _ => true
  | token t => t.isWorded
  | seq a b | alt a b => a.isWorded && b.isWorded
  | many part | group part => part.isWorded
  | node kind part =>
    !kind.isToken && kind.wording?.all (part.shape? == some ·) &&
      kind.opening?.all (fun k => part.shape?.any (·.opens k)) &&
      (!kind.isSpecifier || part.shape?.any (·.all Kind.isToken)) && part.isWorded
  | absorb kind part =>
    !kind.isToken && kind.wording?.isNone && kind.opening?.isNone && !kind.isSpecifier &&
      part.isWorded

variable {σ : Type} {d : Dialect} {readSymbol : σ → Cursor → Outcome} {c after : Cursor}
  {left forest : Forest}

/-- Blanks and comments are tokens. -/
theorem Cursor.made_skipTrivia (limit : Nat) (c : Cursor) :
    ∀ t ∈ (c.skipTrivia limit).1, t.Made := by
  induction limit generalizing c with
  | zero => exact fun _ ht => absurd ht List.not_mem_nil
  | succ limit ih =>
    rw [skipTrivia]
    dsimp only
    split
    · exact fun _ ht => absurd ht List.not_mem_nil
    · exact List.forall_mem_cons.mpr ⟨.leaf rfl fun h => absurd h Bool.false_ne_true, ih _⟩

/-- A lexeme is a token, and starts visibly if its kind does. -/
theorem Cursor.made_lexeme? {kind : Kind} {gap : Bool} {read? : List Char → Option Nat}
    (h : c.lexeme? kind gap read? = some (forest, after)) (hkind : kind.isToken = true)
    (hvisible : kind.isVisible = true →
      ∀ cs n, read? cs = some n → Lexeme.BeginsVisible (cs.take n)) :
    ∀ t ∈ forest, t.Made := by
  unfold lexeme? at h
  have hcomments : ∀ t ∈ (if gap = true then c.toToken else ([], c)).1, t.Made := by
    split
    · exact made_skipTrivia _ _
    · exact fun _ ht => absurd ht List.not_mem_nil
  dsimp only at h
  obtain ⟨n, hread, heq⟩ := Option.map_eq_some_iff.mp h
  obtain ⟨rfl, -⟩ := Prod.mk.inj heq
  refine List.forall_mem_append.mpr ⟨hcomments, List.forall_mem_singleton.mpr ?_⟩
  exact .leaf hkind fun hk => by simpa using hvisible hk _ _ hread

/-- A line end is a token. -/
theorem Cursor.made_lineEnd? {setting : LineEnd.Setting} {limit : Nat}
    (h : c.lineEnd? d setting limit = some (forest, after)) : ∀ t ∈ forest, t.Made := by
  induction limit generalizing c forest after with
  | zero => cases h
  | succ limit ih =>
    rw [lineEnd?] at h
    split at h
    · obtain ⟨rfl, -⟩ := Prod.mk.inj (Option.some.inj h)
      exact List.forall_mem_singleton.mpr (.leaf rfl fun h => absurd h Bool.false_ne_true)
    · dsimp only at h
      split at h
      · cases h
      · obtain ⟨⟨more, last⟩, hmore, heq⟩ := Option.map_eq_some_iff.mp h
        obtain ⟨rfl, -⟩ := Prod.mk.inj heq
        exact List.forall_mem_cons.mpr
          ⟨.leaf rfl fun h => absurd h Bool.false_ne_true, ih hmore⟩

/-- A visible word starts with something visible. -/
theorem beginsVisible_of_isVisibleWord {text : String} (h : isVisibleWord text = true) :
    Lexeme.BeginsVisible text.toList := by
  obtain ⟨c, hc, hvisible⟩ := (Option.any_eq_true _ _).mp h
  rw [Bool.and_eq_true, bne_iff_ne, Bool.not_eq_true'] at hvisible
  exact ⟨c, hc, hvisible⟩

/-- The mark of a conditional is a question mark and nothing else. -/
theorem take_of_conditionalMark? {cs : List Char} {n : Nat} (h : conditionalMark? d cs = some n) :
    cs.take n = ['?'] := by
  unfold conditionalMark? at h
  repeat' split at h
  all_goals cases h <;> rfl

/-- What is read in a visible form starts visibly. -/
theorem Form.beginsVisible {form : Form} (h : form.isVisible = true) {cs : List Char} {n : Nat}
    (hread : form.read? d cs = some n) : Lexeme.BeginsVisible (cs.take n) := by
  simp only [isVisible, List.contains_cons, List.contains_nil, Bool.or_false, Bool.or_eq_true,
    beq_iff_eq] at h
  rcases h with rfl | rfl | rfl | rfl
  · exact Lexeme.beginsVisible_of_string? hread
  · exact Lexeme.beginsVisible_of_hyphenName? hread
  · exact Lexeme.beginsVisible_of_markupString? hread
  · rw [take_of_conditionalMark? hread]
    exact ⟨'?', rfl, by decide, by decide⟩

/-- What a worded token leaves are trees that are made as their kinds ask. -/
theorem Terminal.made {t : Terminal} (h : t.read? d c = some (forest, after))
    (hworded : t.isWorded = true) : ∀ t ∈ forest, t.Made := by
  cases t <;> rw [read?] at h
  case mark =>
    refine Cursor.made_lexeme? h rfl fun _ cs n hread => ?_
    rw [Lexeme.take_of_mark? hread]
    exact beginsVisible_of_isVisibleWord hworded
  case tight =>
    refine Cursor.made_lexeme? h rfl fun _ cs n hread => ?_
    rw [Lexeme.take_of_mark? hread]
    exact beginsVisible_of_isVisibleWord hworded
  case keyword =>
    obtain ⟨hkind, hvisible⟩ := Bool.and_eq_true_iff.mp hworded
    refine Cursor.made_lexeme? h hkind fun hk cs n hread => ?_
    rw [hk, Bool.not_true, Bool.false_or] at hvisible
    rw [Lexeme.take_of_keyword? hread]
    exact beginsVisible_of_isVisibleWord hvisible
  case name =>
    exact Cursor.made_lexeme? h hworded fun _ cs n => Lexeme.beginsVisible_of_name?
  case lexeme =>
    obtain ⟨hkind, hvisible⟩ := Bool.and_eq_true_iff.mp hworded
    refine Cursor.made_lexeme? h hkind fun hk cs n hread => ?_
    rw [hk, Bool.not_true, Bool.false_or] at hvisible
    exact Form.beginsVisible hvisible hread
  case lineEnd => exact Cursor.made_lineEnd? h
  case finish =>
    dsimp only at h
    split at h
    · obtain ⟨rfl, -⟩ := Prod.mk.inj (Option.some.inj h)
      exact Cursor.made_skipTrivia _ _
    · cases h

/-- What is gathered under a node is made as the node says. -/
theorem Forest.made_gather {kind : Kind} (offset : Nat) (h : ∀ t ∈ forest, t.Made)
    (hkind : kind.isToken = false) (hworded : Worded kind forest) :
    ∀ t ∈ gather kind offset forest, t.Made := by
  refine List.forall_mem_append.mpr
    ⟨fun t ht => h t ((List.takeWhile_prefix _).subset ht), List.forall_mem_singleton.mpr ?_⟩
  refine .node hkind (fun t ht => ?_) ⟨?_, ?_, ?_⟩
  · exact h t ((List.dropWhile_suffix _).subset (List.mem_filter.mp ht).1)
  · rw [kinds_body]
    exact hworded.wording
  · rw [kinds_body]
    exact hworded.opening
  · rw [kinds_body]
    exact hworded.tokens

/-- What a rule reads is made of tokens and constructs, if what its symbols read is. -/
theorem Rule.made {r : Rule σ}
    (hsymbol : ∀ s c forest after, readSymbol s c = some (forest, after) → ∀ t ∈ forest, t.Made)
    (hworded : r.isWorded = true) (hleft : ∀ t ∈ left, t.Made)
    (h : r.read d readSymbol left c = some (forest, after)) : ∀ t ∈ forest, t.Made := by
  induction r generalizing left c forest after with
  | empty =>
    obtain ⟨rfl, -⟩ := Prod.mk.inj (Option.some.inj h)
    exact hleft
  | token t =>
    obtain ⟨⟨new, last⟩, hread, heq⟩ := Option.map_eq_some_iff.mp h
    obtain ⟨rfl, -⟩ := Prod.mk.inj heq
    exact List.forall_mem_append.mpr ⟨hleft, Terminal.made hread hworded⟩
  | symbol s =>
    obtain ⟨⟨new, last⟩, hread, heq⟩ := Option.map_eq_some_iff.mp h
    obtain ⟨rfl, -⟩ := Prod.mk.inj heq
    exact List.forall_mem_append.mpr ⟨hleft, hsymbol _ _ _ _ hread⟩
  | seq a b iha ihb =>
    obtain ⟨ha, hb⟩ := Bool.and_eq_true_iff.mp hworded
    rw [read] at h
    split at h
    · cases h
    · rename_i hfirst
      exact ihb hb (iha ha hleft hfirst) h
  | alt a b iha ihb =>
    obtain ⟨ha, hb⟩ := Bool.and_eq_true_iff.mp hworded
    rw [read] at h
    split at h
    · exact ihb hb hleft h
    · exact iha ha hleft h
  | many part ih =>
    have hrun := repeatStep_induct (part.read d readSymbol)
      (motive := fun forest _ => ∀ t ∈ forest, t.Made)
      (fun before c forest after hbefore hread => ih hworded hbefore hread)
      (c.size + 1) (c := c) hleft
    rw [read] at h
    rw [Option.some.inj h] at hrun
    exact hrun
  | group part ih =>
    obtain ⟨⟨new, last⟩, hread, heq⟩ := Option.map_eq_some_iff.mp h
    obtain ⟨rfl, -⟩ := Prod.mk.inj heq
    exact List.forall_mem_append.mpr ⟨hleft, ih hworded (List.forall_mem_nil _) hread⟩
  | node kind part ih =>
    obtain ⟨⟨new, last⟩, hread, heq⟩ := Option.map_eq_some_iff.mp h
    obtain ⟨rfl, -⟩ := Prod.mk.inj heq
    simp only [isWorded, Bool.and_eq_true, Bool.or_eq_true, Bool.not_eq_true',
      Option.all_eq_true, beq_iff_eq] at hworded
    obtain ⟨⟨⟨⟨hkind, hshape⟩, hopens⟩, htokens⟩, hpart⟩ := hworded
    refine List.forall_mem_append.mpr
      ⟨hleft, Forest.made_gather _ (ih hpart (List.forall_mem_nil _) hread) hkind ⟨?_, ?_, ?_⟩⟩
    · intro s hs
      obtain ⟨new', rfl, hmatches⟩ := matches_shape? (hshape s hs) hread
      exact hmatches
    · intro k hk
      obtain ⟨s, hs, hopens⟩ := (Option.any_eq_true _ _).mp (hopens k hk)
      obtain ⟨new', rfl, hmatches⟩ := matches_shape? hs hread
      exact hmatches.mem_of_opens hopens
    · intro hspecifier
      have hany := htokens.resolve_left (by simp [hspecifier])
      obtain ⟨s, hs, hall⟩ := (Option.any_eq_true _ _).mp hany
      obtain ⟨new', rfl, hmatches⟩ := matches_shape? hs hread
      exact hmatches.forall_of_all hall
  | absorb kind part ih =>
    obtain ⟨⟨all, last⟩, hread, heq⟩ := Option.map_eq_some_iff.mp h
    obtain ⟨rfl, -⟩ := Prod.mk.inj heq
    simp only [isWorded, Bool.and_eq_true, Bool.not_eq_true', Option.isNone_iff_eq_none]
      at hworded
    obtain ⟨⟨⟨⟨hkind, hwording⟩, hopening⟩, hspecifier⟩, hpart⟩ := hworded
    exact Forest.made_gather _ (ih hpart hleft hread) hkind
      ⟨by simp [hwording], by simp [hopening], by simp [hspecifier]⟩
  | check accepts =>
    rw [read] at h
    split at h
    · obtain ⟨rfl, -⟩ := Prod.mk.inj (Option.some.inj h)
      exact hleft
    · cases h
  | peek part =>
    obtain ⟨-, -, heq⟩ := Option.map_eq_some_iff.mp h
    obtain ⟨rfl, -⟩ := Prod.mk.inj heq
    exact hleft
  | deny part =>
    rw [read] at h
    split at h
    · obtain ⟨rfl, -⟩ := Prod.mk.inj (Option.some.inj h)
      exact hleft
    · cases h

/-- The rules of all symbols read tokens and constructs according to their kinds. -/
theorem Symbol.isWorded_rules (d : Dialect) (s : Symbol) : (rules d s).isWorded = true := by
  have hall : (Symbol.all.all fun s => (rules d s).isWorded) = true := by
    cases d <;> decide +kernel
  exact List.all_eq_true.mp hall s s.mem_all

/-- What a symbol reads is made of tokens and constructs. -/
theorem made_symbol (depth : Nat) {s : Symbol}
    (h : Grammar.readSymbol d (rules d) depth s c = some (forest, after)) :
    ∀ t ∈ forest, t.Made := by
  induction depth generalizing s c forest after with
  | zero => cases h
  | succ depth ih =>
    exact Rule.made (fun _ _ _ _ => ih) (s.isWorded_rules d) (List.forall_mem_nil _) h

/-- The trees of a program are tokens and constructs according to their kinds. -/
theorem made_of_parse? {source : String} {tree : Tree} (h : parse? d source = some tree) :
    tree.Made := by
  obtain ⟨⟨forest, last⟩, hread, rfl⟩ := Option.map_eq_some_iff.mp h
  have hworded : program.isWorded = true := by decide +kernel
  exact .node rfl
    (Rule.made (fun _ _ _ _ => made_symbol _) hworded (List.forall_mem_nil _) hread)
    ⟨nofun, nofun, nofun⟩

namespace Tree

/-- An `import.meta` expression. -/
def IsImportMeta (t : Tree) : Prop :=
  t.kind = .metaProperty ∧ Forest.kinds t.children = [.mark "import", .mark ".", .mark "meta"]

/-- A `new.target` expression. -/
def IsNewTarget (t : Tree) : Prop :=
  t.kind = .metaProperty ∧ Forest.kinds t.children = [.mark "new", .mark ".", .mark "target"]

/-- A program that is written as a module: it imports or exports at the top, or says `import.meta`
anywhere. -/
def IsModule (program : Tree) : Prop :=
  (∃ t ∈ program.children, t.kind = .importStatement ∨ t.kind = .exportStatement) ∨
    ∃ t ∈ program.preorder, t.IsImportMeta

instance : DecidablePred IsImportMeta := fun t =>
  inferInstanceAs (Decidable (t.kind = .metaProperty ∧ _))

instance : DecidablePred IsModule := fun program =>
  inferInstanceAs (Decidable ((∃ t ∈ program.children, _) ∨ ∃ t ∈ program.preorder, _))

/-- The properties that are read off keywords are those of the module and of the function. -/
theorem Made.kind_eq_metaProperty_iff {t : Tree} (h : t.Made) :
    t.kind = .metaProperty ↔ t.IsImportMeta ∨ t.IsNewTarget := by
  refine ⟨fun hkind => ?_, fun h => h.elim And.left And.left⟩
  have hshape : (Shape.alt (.dotted "import" "meta") (.dotted "new" "target")).Matches
      (Forest.kinds t.children) := h.wording (hkind ▸ rfl)
  simp only [Shape.dotted, Shape.matches_alt_iff, Shape.matches_seq_iff, Shape.matches_one_iff]
    at hshape
  rcases hshape with ⟨_, _, hkinds, rfl, _, _, rfl, rfl, rfl⟩ |
    ⟨_, _, hkinds, rfl, _, _, rfl, rfl, rfl⟩
  · exact .inl ⟨hkind, hkinds⟩
  · exact .inr ⟨hkind, hkinds⟩

end Tree

/-- A program uses the syntax of modules exactly when it is written as one, or says `new.target`
anywhere. -/
theorem usesModuleSyntax_iff {source : String} {tree : Tree}
    (h : parse? .plain source = some tree) :
    usesModuleSyntax source = true ↔ tree.IsModule ∨ ∃ t ∈ tree.preorder, t.IsNewTarget := by
  have hmade {t : Tree} (ht : t ∈ tree.preorder) := (made_of_parse? h).of_mem_preorder ht
  have hmeta : (∃ t ∈ tree.preorder, t.kind = .metaProperty) ↔
      (∃ t ∈ tree.preorder, t.IsImportMeta) ∨ ∃ t ∈ tree.preorder, t.IsNewTarget := by
    rw [← exists_or]
    refine exists_congr fun t => ?_
    rw [← and_or_left]
    exact and_congr_right fun ht => (hmade ht).kind_eq_metaProperty_iff
  simp only [usesModuleSyntax, parseAnyway, h, Bool.or_eq_true, List.any_eq_true, beq_iff_eq]
  rw [hmeta, Tree.IsModule, or_assoc]

/-- A script in which a function asks for `new.target` counts as a module. -/
theorem usesModuleSyntax_iff_newTarget :
    ∃ tree, parse? .plain "function f() \x7b new.target; \x7d" = some tree ∧
      usesModuleSyntax "function f() \x7b new.target; \x7d" = true ∧ ¬ tree.IsModule ∧
        ∃ t ∈ tree.preorder, t.IsNewTarget := by
  have hsome : (parse? .plain "function f() \x7b new.target; \x7d").isSome = true := by
    decide +kernel
  obtain ⟨tree, h⟩ := Option.isSome_iff_exists.mp hsome
  have huses : usesModuleSyntax "function f() \x7b new.target; \x7d" = true := by decide +kernel
  have hmodule : ¬ tree.IsModule := by
    have hnone : (parse? .plain "function f() \x7b new.target; \x7d").all
        (fun tree => !decide tree.IsModule) = true := by decide +kernel
    simpa [h] using hnone
  exact ⟨tree, h, huses, hmodule, ((usesModuleSyntax_iff h).mp huses).resolve_left hmodule⟩

/-- It is not only modules that use the syntax of modules. -/
theorem not_forall_usesModuleSyntax_iff :
    ¬ ∀ (source : String) (tree : Tree), parse? .plain source = some tree →
      (usesModuleSyntax source = true ↔ tree.IsModule) := by
  intro h
  have hsome : (parse? .plain "function f() \x7b new.target; \x7d").any
      (fun tree => !decide tree.IsModule) = true := by decide +kernel
  obtain ⟨tree, hparse, hmodule⟩ := (Option.any_eq_true _ _).mp hsome
  have huses : usesModuleSyntax "function f() \x7b new.target; \x7d" = true := by decide +kernel
  exact absurd ((h _ tree hparse).mp huses) (by simpa using hmodule)

end ScriptModules.Grammar

import ScriptModules.Proofs.Files.Rooted

/-!
# Normal forms of paths

The normal form of an absolute path folds its parts one after the other: what is left are the steps
up at the root, and the names that lead to the location of the path. A relative text without steps
up adds only names to that, so what it names stays below the path that it is joined to.
-/

namespace ScriptModules.Path

/-- Fold one more part into the parts before it, which come last first. -/
def fold (before : List Part) : Part → List Part
  | .here => before
  | .up =>
    match before with
    | .name _ :: rest => rest
    | _ => .up :: before
  | part => part :: before

/-- A normal form is made of the folded parts. -/
theorem normalize_eq (p : Path) : p.normalize = ofParts (p.parts.foldl fold []).reverse := by
  unfold normalize
  congr! 3

/-- The parts of a way from the root, last first. -/
inductive Stepwise : List Part → Prop
  | root : Stepwise [.root]
  | up {before : List Part} (h : Stepwise before) : Stepwise (.up :: before)
  | name {before : List Part} {name : String} (h : Stepwise before) (hname : IsName name) :
    Stepwise (.name name :: before)

/-- A part after the root. -/
inductive IsStep : Part → Prop
  | up : IsStep .up
  | name {name : String} (h : IsName name) : IsStep (.name name)

/-- A piece without slashes stands for a step, if for any part. -/
theorem isStep_of_partOf? {piece : String} {part : Part} (h : partOf? piece = some part)
    (hslash : '/' ∉ piece.toList) : IsStep part := by
  unfold partOf? at h
  split at h
  · cases h
  · rename_i hreal
    split at h
    · obtain rfl := Option.some.inj h
      exact .up
    · rename_i hup
      obtain rfl := Option.some.inj h
      exact .name ⟨hslash, by simpa using hreal, by simpa using hup⟩

/-- The parts of a path are steps, but for a root or a dot that it may start with. -/
theorem exists_first_steps (p : Path) : p.parts = [] ∨ ∃ first steps, p.parts = first :: steps ∧
    (first = .root ∨ first = .here ∨ IsStep first) ∧ ∀ part ∈ steps, IsStep part := by
  by_cases htext : p.text = ""
  · exact Or.inl (parts_of_text_eq_empty htext)
  · obtain ⟨piece, more, hpieces⟩ := List.exists_cons_of_ne_nil (pieces_ne_nil p)
    obtain ⟨first, hfirst, -⟩ := exists_start_eq piece
    have hstep {p' : String} {part : Part} (hmem : p' ∈ piece :: more)
        (hpart : partOf? p' = some part) : IsStep part :=
      isStep_of_partOf? hpart (slash_not_mem_of_mem_pieces (hpieces ▸ hmem))
    refine Or.inr ⟨first, more.filterMap partOf?, by rw [parts_eq htext hpieces, hfirst]; rfl,
      ?_, fun part hpart => ?_⟩
    · have hmem : first ∈ start piece := by simp [hfirst]
      unfold start at hmem
      split at hmem
      · exact Or.inl (List.mem_singleton.mp hmem)
      · split at hmem
        · exact Or.inr (Or.inl (List.mem_singleton.mp hmem))
        · exact Or.inr (Or.inr (hstep List.mem_cons_self (Option.mem_toList.mp hmem)))
    · obtain ⟨p', hmem, hpart⟩ := List.mem_filterMap.mp hpart
      exact hstep (List.mem_cons_of_mem _ hmem) hpart

/-- Folding one more step keeps the way from the root. -/
theorem Stepwise.fold {before : List Part} (h : Stepwise before) {part : Part}
    (hpart : IsStep part) : Stepwise (fold before part) := by
  cases hpart with
  | name hname => exact .name h hname
  | up =>
    cases h with
    | root => exact .up .root
    | up h => exact .up (.up h)
    | name h _ => exact h

/-- Folding more steps keeps the way from the root. -/
theorem Stepwise.foldl {before : List Part} (h : Stepwise before) {parts : List Part}
    (hparts : ∀ part ∈ parts, IsStep part) : Stepwise (parts.foldl Path.fold before) := by
  induction parts generalizing before with
  | nil => exact h
  | cons part rest ih =>
    exact ih (h.fold (hparts part List.mem_cons_self)) fun part hpart =>
      hparts part (List.mem_cons_of_mem _ hpart)

/-- Names are kept as they are. -/
theorem foldl_fold_names (names : List String) (before : List Part) :
    (names.map .name).foldl fold before = (names.map .name).reverse ++ before := by
  induction names generalizing before with
  | nil => rfl
  | cons name rest ih => simp [ih, fold]

/-- A way from the root is spelled so that its parts are those of the way. -/
theorem Stepwise.parts_ofParts {before : List Part} (h : Stepwise before) :
    (ofParts before.reverse).parts = before.reverse := by
  have concat (before : List Part) (part : Part) (rest : String)
      (hparts : (ofParts before.reverse).parts = before.reverse) (hne : before ≠ [])
      (hrest : (⟨rest⟩ : Path).isAbsolute = false)
      (hpart : (pieces ⟨rest⟩).filterMap partOf? = [part]) :
      ((ofParts before.reverse).join rest).parts = (part :: before).reverse := by
    have htext : (ofParts before.reverse).text ≠ "" := by
      intro hempty
      rw [parts_of_text_eq_empty hempty] at hparts
      exact hne (List.reverse_eq_nil_iff.mp hparts.symm)
    rw [parts_join_of_relative htext hrest, hparts, hpart, List.reverse_cons]
  induction h with
  | root => decide
  | @up before h ih =>
    have hlast : ofParts (.up :: before).reverse = (ofParts before.reverse).join ".." := by
      rw [List.reverse_cons, ofParts, List.foldl_append]
      rfl
    rw [hlast]
    exact concat before .up ".." ih (by cases h <;> simp) (by decide) (by decide)
  | @name before name h hname ih =>
    have hlast : ofParts (.name name :: before).reverse = (ofParts before.reverse).join name := by
      rw [List.reverse_cons, ofParts, List.foldl_append]
      rfl
    rw [hlast]
    exact concat before _ name ih (by cases h <;> simp) (isAbsolute_of_isName hname)
      (by simp [pieces_of_not_mem hname.slash, hname.partOf?])

variable {p : Path} {rest : String}

/-- The parts of an absolute path after the root are steps. -/
theorem exists_parts_of_isAbsolute (h : p.isAbsolute = true) :
    ∃ steps, p.parts = .root :: steps ∧ ∀ part ∈ steps, IsStep part := by
  obtain ⟨hne, more, hmore⟩ := exists_pieces_of_isAbsolute h
  refine ⟨more.filterMap partOf?, by rw [parts_eq hne hmore]; rfl, fun part hpart => ?_⟩
  obtain ⟨piece, hpiece, hpartOf⟩ := List.mem_filterMap.mp hpart
  refine isStep_of_partOf? hpartOf (slash_not_mem_of_mem_pieces (p := p) ?_)
  rw [hmore]
  exact List.mem_cons_of_mem _ hpiece

/-- The normal form of an absolute path has the folded parts. -/
theorem parts_normalize (h : p.isAbsolute = true) :
    p.normalize.parts = (p.parts.foldl fold []).reverse := by
  obtain ⟨steps, hparts, hsteps⟩ := exists_parts_of_isAbsolute h
  rw [normalize_eq, hparts]
  exact (Stepwise.root.foldl hsteps).parts_ofParts

/-- The text of a path from the root is not empty. -/
theorem text_ne_empty_of_isAbsolute (h : p.isAbsolute = true) : p.text ≠ "" :=
  (exists_pieces_of_isAbsolute h).1

/-- A path from the root stays one when something relative is joined. -/
theorem isAbsolute_join_of_relative (h : p.isAbsolute = true)
    (hrest : (⟨rest⟩ : Path).isAbsolute = false) : (p.join rest).isAbsolute = true := by
  rw [isAbsolute_iff] at h ⊢
  rw [parts_join_of_relative (text_ne_empty_of_isAbsolute (isAbsolute_iff.mpr h)) hrest,
    List.head?_append, h]
  rfl

/-- An absolute text below a path stands for itself. -/
theorem join_of_isAbsolute (h : (⟨rest⟩ : Path).isAbsolute = true) : p.join rest = ⟨rest⟩ := by
  exact if_pos h

/-- A relative text without steps up stands for names. -/
theorem exists_names_of_not_mem (hup : ".." ∉ pieces ⟨rest⟩) :
    ∃ names, (pieces ⟨rest⟩).filterMap partOf? = List.map .name names := by
  have hnames : ∀ part ∈ (pieces ⟨rest⟩).filterMap partOf?, ∃ name, part = .name name := by
    intro part hpart
    obtain ⟨piece, hpiece, hpartOf⟩ := List.mem_filterMap.mp hpart
    cases isStep_of_partOf? hpartOf (slash_not_mem_of_mem_pieces hpiece) with
    | name => exact ⟨_, rfl⟩
    | up =>
      have hpieceUp : ".." = piece := piece_of_partOf? hpartOf
      exact absurd (hpieceUp ▸ hpiece) hup
  generalize (pieces ⟨rest⟩).filterMap partOf? = parts at hnames
  induction parts with
  | nil => exact ⟨[], rfl⟩
  | cons part parts ih =>
    obtain ⟨name, rfl⟩ := hnames part List.mem_cons_self
    obtain ⟨names, rfl⟩ := ih fun part hpart => hnames part (List.mem_cons_of_mem _ hpart)
    exact ⟨name :: names, rfl⟩

/-- A relative text without steps up adds names to the normal form. -/
theorem parts_normalize_join (h : p.isAbsolute = true)
    (hrest : (⟨rest⟩ : Path).isAbsolute = false) (hup : ".." ∉ pieces ⟨rest⟩) :
    (p.join rest).normalize.parts = p.normalize.parts ++ (pieces ⟨rest⟩).filterMap partOf? := by
  obtain ⟨names, hnames⟩ := exists_names_of_not_mem hup
  rw [parts_normalize (isAbsolute_join_of_relative h hrest), parts_normalize h,
    parts_join_of_relative (text_ne_empty_of_isAbsolute h) hrest, List.foldl_append, hnames,
    foldl_fold_names, List.reverse_append, List.reverse_reverse]

/-- A relative text without steps up stays below the path that it is joined to. -/
theorem startsWith_normalize_join (h : p.isAbsolute = true)
    (hrest : (⟨rest⟩ : Path).isAbsolute = false) (hup : ".." ∉ pieces ⟨rest⟩) :
    (p.join rest).normalize.startsWith p.normalize = true := by
  rw [startsWith, parts_normalize_join h hrest hup, List.isPrefixOf_iff_prefix]
  exact List.prefix_append _ _

/-- The names that lead from the root to where one more part leads, last first. The root is its own
parent. -/
def enter (names : List String) : Part → List String
  | .root => []
  | .here => names
  | .up => names.tail
  | .name name => name :: names

/-- The names that lead from the root to the location of a path. -/
def location (p : Path) : List String := (p.parts.foldl enter []).reverse

/-- How often some parts step up at the root. -/
def ascents (names : List String) : List Part → Nat
  | [] => 0
  | part :: rest => (if part = .up ∧ names = [] then 1 else 0) + ascents (enter names part) rest

/-- How often a path steps up at the root. -/
def excess (p : Path) : Nat := ascents [] p.parts

/-- Folding keeps the names that are entered, and before them the steps up at the root. -/
theorem foldl_fold_eq {steps : List Part} (h : ∀ part ∈ steps, IsStep part) (ups : Nat)
    (names : List String) :
    steps.foldl fold (List.map .name names ++ List.replicate ups .up ++ [.root]) =
      List.map .name (steps.foldl enter names) ++
        List.replicate (ups + ascents names steps) .up ++ [.root] := by
  induction steps generalizing ups names with
  | nil => rfl
  | cons part rest ih =>
    have hrest := ih fun part hpart => h part (List.mem_cons_of_mem _ hpart)
    rw [List.foldl_cons, List.foldl_cons, ascents, ← Nat.add_assoc, ← hrest]
    congr 1
    cases h part List.mem_cons_self with
    | name _ => rfl
    | up =>
      cases names with
      | cons name names => rfl
      | nil => cases ups <;> rfl

/-- The normal form of an absolute path spells its location behind its steps up at the root. -/
theorem parts_normalize_eq (h : p.isAbsolute = true) : p.normalize.parts =
    .root :: (List.replicate p.excess .up ++ List.map .name p.location) := by
  obtain ⟨steps, hparts, hsteps⟩ := exists_parts_of_isAbsolute h
  have hfold := foldl_fold_eq hsteps 0 []
  have hexcess : p.excess = 0 + ascents [] steps := by rw [excess, hparts]; rfl
  have hlocation : p.location = (steps.foldl enter []).reverse := by rw [location, hparts]; rfl
  rw [parts_normalize h, hexcess, hlocation, hparts, List.foldl_cons]
  exact (congrArg List.reverse hfold).trans (by simp)

/-- Names are entered one below the other. -/
theorem foldl_enter_names (names before : List String) :
    (List.map .name names).foldl enter before = names.reverse ++ before := by
  induction names generalizing before with
  | nil => rfl
  | cons name rest ih => simp [ih, enter]

/-- Steps up at the root lead nowhere else. -/
theorem foldl_enter_ups (ups : Nat) : (List.replicate ups .up).foldl enter [] = [] := by
  induction ups with
  | zero => rfl
  | succ ups ih => exact ih

/-- The steps up at the root of two ways that follow one another add up. -/
theorem ascents_append (names : List String) (steps rest : List Part) :
    ascents names (steps ++ rest) =
      ascents names steps + ascents (steps.foldl enter names) rest := by
  induction steps generalizing names with
  | nil => exact (Nat.zero_add _).symm
  | cons part steps ih =>
    rw [List.cons_append, ascents, ascents, ih, List.foldl_cons, Nat.add_assoc]

/-- Names are no steps up. -/
theorem ascents_names (names before : List String) : ascents before (List.map .name names) = 0 := by
  induction names generalizing before with
  | nil => rfl
  | cons name rest ih => simp [ascents, ih]

/-- At the root, every step up is one at the root. -/
theorem ascents_ups (ups : Nat) : ascents [] (List.replicate ups .up) = ups := by
  induction ups with
  | zero => rfl
  | succ ups ih =>
    rw [List.replicate_succ, ascents]
    exact (congrArg (1 + ·) ih).trans (Nat.add_comm 1 ups)

/-- Where a path leads that steps up before all its names is told by the names. -/
theorem location_of_parts {ups : Nat} {names : List String}
    (h : p.parts = .root :: (List.replicate ups .up ++ List.map .name names)) :
    p.location = names := by
  rw [location, h, List.foldl_cons, List.foldl_append]
  rw [show enter [] .root = [] from rfl, foldl_enter_ups, foldl_enter_names, List.append_nil,
    List.reverse_reverse]

/-- How often a path steps up at the root is the number of steps before its names. -/
theorem excess_of_parts {ups : Nat} {names : List String}
    (h : p.parts = .root :: (List.replicate ups .up ++ List.map .name names)) :
    p.excess = ups := by
  rw [excess, h, ascents, ascents_append]
  rw [show enter [] .root = [] from rfl, ascents_ups, ascents_names, if_neg (by simp)]
  exact Nat.zero_add _

/-- All steps up of a path from the root come before its names. -/
def IsNormal (p : Path) : Prop :=
  ∃ ups names, p.parts = .root :: (List.replicate ups .up ++ List.map .name names)

/-- A normal path starts at the root. -/
theorem IsNormal.isAbsolute (h : IsNormal p) : p.isAbsolute = true := by
  obtain ⟨ups, names, hparts⟩ := h
  rw [isAbsolute_iff, hparts]
  rfl

/-- A normal form is normal. -/
theorem isNormal_normalize (h : p.isAbsolute = true) : IsNormal p.normalize :=
  ⟨p.excess, p.location, parts_normalize_eq h⟩

/-- A path in normal form keeps its parts. -/
theorem IsNormal.parts_normalize (h : IsNormal p) : p.normalize.parts = p.parts := by
  have hnormal := parts_normalize_eq h.isAbsolute
  obtain ⟨ups, names, hparts⟩ := h
  rw [hnormal, excess_of_parts hparts, location_of_parts hparts, hparts]

/-- The first parts of a path in normal form, with names after them, are in normal form. -/
theorem IsNormal.of_prefix {q : Path} (h : IsNormal p) (hq : q.isAbsolute = true)
    {before : List Part} {names : List String} (hbefore : before <+: p.parts)
    (hparts : q.parts = before ++ List.map .name names) : IsNormal q := by
  obtain ⟨ups, names', hp⟩ := h
  rw [hp] at hbefore
  cases before with
  | nil =>
    rw [isAbsolute_iff, hparts] at hq
    cases names <;> cases hq
  | cons first rest =>
    obtain ⟨rfl, hrest⟩ := List.cons_prefix_cons.mp hbefore
    rw [List.prefix_iff_eq_take.mp hrest, List.take_append, List.take_replicate,
      List.length_replicate, ← List.map_take] at hparts
    exact ⟨min rest.length ups, names'.take (rest.length - ups) ++ names, by simp [hparts]⟩

/-- A path from the root of the first parts of a normal path is normal. -/
theorem IsNormal.of_prefix_parts {q : Path} (h : IsNormal p) (hq : q.isAbsolute = true)
    (hparts : q.parts <+: p.parts) : IsNormal q := by
  have hnames : q.parts = q.parts ++ List.map .name [] := (List.append_nil _).symm
  exact h.of_prefix hq hparts hnames

/-- The directory that a normal path is in has a normal path. -/
theorem IsNormal.of_parent? {q : Path} (h : IsNormal p) (hq : p.parent? = some q) :
    IsNormal q := by
  obtain ⟨part, -, hparts⟩ := exists_parts_of_parent? hq
  refine h.of_prefix_parts (isAbsolute_of_parent? h.isAbsolute hq) ?_
  rw [hparts]
  exact List.prefix_append _ _

/-- All directories above a normal path have normal paths. -/
theorem IsNormal.of_mem_ancestors {q : Path} (h : IsNormal p) (hq : q ∈ p.ancestors) :
    IsNormal q :=
  h.of_prefix_parts (isAbsolute_of_mem_ancestors h.isAbsolute hq) (parts_prefix_of_mem_ancestors hq)

/-- A relative text without steps up keeps a path in normal form. -/
theorem IsNormal.join (h : IsNormal p) (hrest : (⟨rest⟩ : Path).isAbsolute = false)
    (hup : ".." ∉ pieces ⟨rest⟩) : IsNormal (p.join rest) := by
  obtain ⟨names, hnames⟩ := exists_names_of_not_mem hup
  have hparts := parts_join_of_relative (text_ne_empty_of_isAbsolute h.isAbsolute) hrest
  rw [hnames] at hparts
  exact h.of_prefix (isAbsolute_join_of_relative h.isAbsolute hrest) (List.prefix_refl _) hparts

/-- Letters at the end of a path make a name of its last piece. -/
theorem IsNormal.append (h : IsNormal p) {letters : String} (hslash : '/' ∉ letters.toList)
    (hlength : 2 < letters.length) : IsNormal ⟨p.text ++ letters⟩ := by
  have hname (piece : String) (hpiece : '/' ∉ piece.toList) : IsName (piece ++ letters) := by
    have hne (short : String) (hshort : short.length ≤ 2) : piece ++ letters ≠ short := by
      intro heq
      have hlen := congrArg String.length heq
      rw [String.length_append] at hlen
      omega
    refine ⟨?_, ?_, hne _ (by decide)⟩
    · rw [String.toList_append, List.mem_append, not_or]
      exact ⟨hpiece, hslash⟩
    · simp [isIdle, hne "" (by decide), hne "." (by decide)]
  have hslashes : ∀ piece ∈ p.pieces.drop 1, '/' ∉ piece.toList := fun piece hpiece =>
    slash_not_mem_of_mem_pieces (List.mem_of_mem_drop hpiece)
  obtain ⟨front, last, hpieces⟩ : ∃ front last, p.pieces.drop 1 = front ++ [last] := by
    refine ⟨_, _, (List.dropLast_concat_getLast fun hnil => ?_).symm⟩
    obtain ⟨htext, rest, hrest⟩ := exists_pieces_of_isAbsolute h.isAbsolute
    rw [hrest, List.drop_one, List.tail_cons] at hnil
    exact htext (text_eq_empty_of_pieces (hnil ▸ hrest))
  rw [hpieces] at hslashes
  have hlast := hname last (hslashes last (by simp))
  have hp : p = rooted (front ++ [last]) := by rw [← hpieces, ← eq_rooted h.isAbsolute]
  have hq : (⟨p.text ++ letters⟩ : Path) = rooted (front ++ [last ++ letters]) := by
    refine congrArg Path.mk ?_
    rw [hp, text_rooted_concat, String.append_assoc]
    exact (text_rooted_concat front (last ++ letters)).symm
  have hslashes' : ∀ piece ∈ front ++ [last ++ letters], '/' ∉ piece.toList := by
    intro piece hpiece
    rcases List.mem_append.mp hpiece with hpiece | hpiece
    · exact hslashes piece (List.mem_append_left _ hpiece)
    · rw [List.mem_singleton.mp hpiece]
      exact hlast.slash
  have hparts : (rooted (front ++ [last ++ letters])).parts =
      (.root :: front.filterMap partOf?) ++ List.map .name [last ++ letters] := by
    rw [parts_rooted (by simp) hslashes', List.filterMap_append,
      List.filterMap_cons_some hlast.partOf?]
    rfl
  have hbefore : .root :: front.filterMap partOf? <+: p.parts := by
    rw [hp, parts_rooted (by simp) hslashes, List.filterMap_append]
    exact List.cons_prefix_cons.mpr ⟨rfl, List.prefix_append _ _⟩
  rw [hq]
  exact h.of_prefix (isAbsolute_iff.mpr (by rw [hparts]; rfl)) hbefore hparts

/-- A relative text below a relative path is relative. -/
theorem isAbsolute_join_eq_false (h : p.isAbsolute = false)
    (hrest : (⟨rest⟩ : Path).isAbsolute = false) : (p.join rest).isAbsolute = false := by
  have hhead : ¬ (rest.toList.head? == some '/') = true := by simpa [isAbsolute] using hrest
  rw [join, if_neg hhead]
  cases hlast : p.text.toList.getLast? with
  | none => exact hrest
  | some c =>
    have hne : p.text.toList ≠ [] := by
      intro hnil
      rw [hnil] at hlast
      cases hlast
    obtain ⟨first, cs, hcs⟩ := List.exists_cons_of_ne_nil hne
    have hfirst : ¬ first = '/' := by simpa [isAbsolute, hcs] using h
    dsimp only
    split <;> simp [isAbsolute, hcs, hfirst]

/-- A part of a relative path. -/
def IsRelativePart : Part → Prop
  | .root => False
  | .here | .up => True
  | .name name => (⟨name⟩ : Path).isAbsolute = false

/-- A step is a part of a relative path. -/
theorem IsStep.isRelativePart {part : Part} (h : IsStep part) : IsRelativePart part := by
  cases h with
  | up => trivial
  | name hname => exact isAbsolute_of_isName hname

/-- The parts of a path that does not start at the root do not lead to it. -/
theorem isRelativePart_of_mem_parts (h : p.isAbsolute = false) {part : Part}
    (hpart : part ∈ p.parts) : IsRelativePart part := by
  by_cases htext : p.text = ""
  · rw [parts_of_text_eq_empty htext] at hpart
    cases hpart
  · obtain ⟨first, rest, hpieces⟩ := List.exists_cons_of_ne_nil (pieces_ne_nil p)
    have hstep {piece : String} (hpiece : piece ∈ first :: rest)
        (hpartOf : partOf? piece = some part) : IsRelativePart part :=
      (isStep_of_partOf? hpartOf (slash_not_mem_of_mem_pieces (hpieces ▸ hpiece))).isRelativePart
    rw [parts_eq htext hpieces, List.mem_append] at hpart
    rcases hpart with hpart | hpart
    · have hfirst : first ≠ "" := by
        rintro rfl
        have habsolute : p.isAbsolute = true := by
          rw [isAbsolute_iff, parts_eq htext hpieces]
          rfl
        rw [habsolute] at h
        cases h
      rw [start, if_neg (by simpa using hfirst)] at hpart
      split at hpart
      · rw [List.mem_singleton.mp hpart]
        trivial
      · exact hstep List.mem_cons_self (Option.mem_toList.mp hpart)
    · obtain ⟨piece, hpiece, hpartOf⟩ := List.mem_filterMap.mp hpart
      exact hstep (List.mem_cons_of_mem _ hpiece) hpartOf

/-- A path of relative parts is relative. -/
theorem isAbsolute_ofParts_eq_false {parts : List Part} (h : ∀ part ∈ parts, IsRelativePart part) :
    (ofParts parts).isAbsolute = false := by
  unfold ofParts
  have hempty : (⟨""⟩ : Path).isAbsolute = false := rfl
  generalize (⟨""⟩ : Path) = before at hempty
  induction parts generalizing before with
  | nil => exact hempty
  | cons part rest ih =>
    refine ih (fun part hpart => h part (List.mem_cons_of_mem _ hpart)) _ ?_
    have hpart := h part List.mem_cons_self
    cases part with
    | root => cases hpart
    | here => exact isAbsolute_join_eq_false hempty rfl
    | up => exact isAbsolute_join_eq_false hempty rfl
    | name name => exact isAbsolute_join_eq_false hempty hpart

/-- Folding adds no parts but the one that is folded. -/
theorem mem_fold {before : List Part} {part other : Part} (h : other ∈ fold before part) :
    other ∈ before ∨ other = part := by
  cases part with
  | here => exact Or.inl h
  | up =>
    cases before with
    | nil => exact (List.mem_cons.mp h).symm
    | cons last rest =>
      cases last with
      | name => exact Or.inl (List.mem_cons_of_mem _ h)
      | _ => exact (List.mem_cons.mp h).symm
  | root => exact (List.mem_cons.mp h).symm
  | name => exact (List.mem_cons.mp h).symm

/-- Only absolute paths have absolute normal forms. -/
theorem isAbsolute_of_normalize (h : p.normalize.isAbsolute = true) : p.isAbsolute = true := by
  by_contra hp
  rw [Bool.not_eq_true] at hp
  have hfolded (parts before : List Part) (hparts : ∀ part ∈ parts, IsRelativePart part)
      (hbefore : ∀ part ∈ before, IsRelativePart part) :
      ∀ part ∈ parts.foldl fold before, IsRelativePart part := by
    induction parts generalizing before with
    | nil => exact hbefore
    | cons part rest ih =>
      refine ih _ (fun part hpart => hparts part (List.mem_cons_of_mem _ hpart)) ?_
      intro other hother
      rcases mem_fold hother with hother | rfl
      · exact hbefore other hother
      · exact hparts other List.mem_cons_self
  have hrelative : p.normalize.isAbsolute = false := by
    rw [normalize_eq]
    refine isAbsolute_ofParts_eq_false fun part hpart => ?_
    exact hfolded p.parts [] (fun _ => isRelativePart_of_mem_parts hp) (by simp) part
      (List.mem_reverse.mp hpart)
  rw [hrelative] at h
  cases h

/-- The text of a normal form is the one that its parts make. -/
theorem ofParts_parts_normalize (h : p.isAbsolute = true) :
    ofParts p.normalize.parts = p.normalize := by
  rw [parts_normalize h, normalize_eq]

/-- Normalizing a normal path only writes its parts again. -/
theorem IsNormal.normalize_eq (h : IsNormal p) : p.normalize = ofParts p.parts := by
  rw [← ofParts_parts_normalize h.isAbsolute, h.parts_normalize]

/-- Paths with the same parts have the same normal form. -/
theorem normalize_congr {q : Path} (h : p.parts = q.parts) : p.normalize = q.normalize := by
  rw [normalize_eq, normalize_eq, h]

/-- A normal form is its own normal form. -/
theorem normalize_normalize (h : p.isAbsolute = true) : p.normalize.normalize = p.normalize := by
  rw [(isNormal_normalize h).normalize_eq, ofParts_parts_normalize h]

/-- A name at the end of some parts is joined to the path of the others. -/
theorem ofParts_concat (parts : List Part) (name : String) :
    ofParts (parts ++ [.name name]) = (ofParts parts).join name := by
  rw [ofParts, ofParts, List.foldl_append]
  rfl

/-- A name below a normal form makes another one. -/
theorem normalize_join_of_isName {name : String} (h : p.normalize.isAbsolute = true)
    (hname : IsName name) : (p.normalize.join name).normalize = p.normalize.join name := by
  have hp := isAbsolute_of_normalize h
  have hpieces : pieces ⟨name⟩ = [name] := pieces_of_not_mem hname.slash
  have hup : ".." ∉ pieces ⟨name⟩ := by
    rw [hpieces, List.mem_singleton]
    exact fun heq => hname.up heq.symm
  have hnormal := (isNormal_normalize hp).join (isAbsolute_of_isName hname) hup
  rw [hnormal.normalize_eq, parts_join hname, ofParts_concat, ofParts_parts_normalize hp]

end ScriptModules.Path

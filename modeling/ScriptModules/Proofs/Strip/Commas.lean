import ScriptModules.Proofs.Strip.Items

/-!
# Commas that stay behind

What is left of a list that loses items has the shape of a list again, unless a comma stays that has
lost what stood beside it.
-/

namespace ScriptModules.Strip

open Grammar (Forest Kind Shape Tree)

variable {goes : Tree → Bool} {t : Tree} {ts front : Forest} {ks : List Kind}

/-- The first kind is that of a tree with nothing but loose trees before it. -/
theorem exists_of_kinds_eq_cons {k : Kind} (h : Forest.kinds ts = k :: ks) :
    ∃ front t back, ts = front ++ t :: back ∧ (∀ u ∈ front, u.kind.isLoose = true) ∧ t.kind = k ∧
      k.isLoose = false ∧ Forest.kinds back = ks := by
  induction ts with
  | nil => cases h
  | cons t ts ih =>
    have hcons : Forest.kinds (t :: ts) = Forest.kinds [t] ++ Forest.kinds ts := by
      rw [← Forest.kinds_append, List.singleton_append]
    rw [hcons, Forest.kinds_singleton] at h
    split at h
    · rename_i hloose
      obtain ⟨front, u, back, rfl, hfront, hrest⟩ := ih h
      refine ⟨t :: front, u, back, rfl, ?_, hrest⟩
      exact List.forall_mem_cons.mpr ⟨hloose, hfront⟩
    · rename_i hloose
      obtain ⟨rfl, hks⟩ := List.cons.inj h
      exact ⟨[], t, ts, rfl, by simp, rfl, by simpa using hloose, hks⟩

/-- Trees without kinds are loose. -/
theorem all_isLoose_of_kinds_eq_nil (h : Forest.kinds ts = []) :
    ∀ u ∈ ts, u.kind.isLoose = true := by
  rw [Forest.kinds, List.filter_eq_nil_iff] at h
  intro u hu
  simpa using h u.kind (List.mem_map_of_mem hu)

/-- Nothing is left of comments, and the comma after them stays. -/
theorem remains_append (skips : Bool) (hgoes : ∀ t, goes t = true → isItem t = true)
    (hfront : ∀ u ∈ front, u.kind.isLoose = true) (ts : Forest) :
    remains goes skips (front ++ ts) = remains goes (skips && front.isEmpty) ts := by
  induction front generalizing skips with
  | nil => simp
  | cons u front ih =>
    have hloose := hfront u List.mem_cons_self
    have hstays : goes u = false := by
      rw [Bool.eq_false_iff]
      intro hgone
      have hitem := hgoes u hgone
      simp [isItem, hloose] at hitem
    have hcomma : u.kind ≠ .mark "," := by
      intro hkind
      rw [hkind] at hloose
      cases hloose
    have hrest := ih false fun v hv => hfront v (List.mem_cons_of_mem _ hv)
    rw [Bool.false_and] at hrest
    rw [List.cons_append, remains, hstays, Forest.kinds_singleton, hloose, beq_false_of_ne hcomma,
      hrest]
    simp

/-- Loose trees have no part in whether a comma is stranded. -/
theorem strandsComma_append (gone : Tree → Bool) (hfront : ∀ u ∈ front, u.kind.isLoose = true)
    (ts : Forest) : strandsComma gone (front ++ ts) = strandsComma gone ts := by
  induction front with
  | nil => rfl
  | cons u front ih =>
    rw [List.cons_append, strandsComma, isItem, hfront u List.mem_cons_self,
      ih fun v hv => hfront v (List.mem_cons_of_mem _ hv)]
    rfl

/-- What is left of a list whose first tree but for comments is given. -/
theorem remains_append_cons (skips : Bool) (hgoes : ∀ t, goes t = true → isItem t = true)
    (hfront : ∀ u ∈ front, u.kind.isLoose = true) (hloose : t.kind.isLoose = false)
    (ts : Forest) :
    remains goes skips (front ++ t :: ts) =
      if goes t then remains goes (t.kind != .namespaceImport) ts
      else if skips && front.isEmpty && t.kind == .mark "," then remains goes false ts
      else t.kind :: remains goes false ts := by
  rw [remains_append skips hgoes hfront, remains, Forest.kinds_singleton, hloose]
  rfl

/-- Nothing remains of loose trees. -/
theorem remains_of_all (skips : Bool) (hgoes : ∀ t, goes t = true → isItem t = true)
    (hts : ∀ u ∈ ts, u.kind.isLoose = true) : remains goes skips ts = [] := by
  simpa [remains] using remains_append skips hgoes hts []

/-- Loose trees strand no comma. -/
theorem strandsComma_of_all (gone : Tree → Bool) (hts : ∀ u ∈ ts, u.kind.isLoose = true) :
    strandsComma gone ts = false := by
  simpa [strandsComma] using strandsComma_append gone hts []

/-- A comma is late if loose trees stand before it. -/
theorem hasLateComma_append (hfront : ∀ u ∈ front, u.kind.isLoose = true)
    (hloose : t.kind.isLoose = false) (ts : Forest) :
    hasLateComma (front ++ t :: ts) = (!front.isEmpty && t.kind == .mark ",") := by
  have hdrop : (front ++ t :: ts).dropWhile (·.kind.isLoose) = t :: ts := by
    rw [List.dropWhile_append_of_pos hfront, List.dropWhile_cons_of_neg (by simp [hloose])]
  rw [hasLateComma, hdrop]
  cases front with
  | nil => simp [hloose]
  | cons u front => simp [hfront u List.mem_cons_self]

/-- Loose trees have no late comma. -/
theorem hasLateComma_of_all (hts : ∀ u ∈ ts, u.kind.isLoose = true) : hasLateComma ts = false := by
  have hdrop : ts.dropWhile (·.kind.isLoose) = [] := by
    simpa [List.dropWhile_eq_nil_iff] using hts
  simp [hasLateComma, hdrop]

/-- What may follow the brace or a comma of a list of specifiers. -/
inductive Specifiers (item : Kind) : List Kind → Prop
  | close : Specifiers item [.mark "\x7d"]
  | last : Specifiers item [item, .mark "\x7d"]
  | more {ks : List Kind} (h : Specifiers item ks) : Specifiers item (item :: .mark "," :: ks)

section

variable {item : Kind}

/-- Specifiers are a list of them before the closing brace. -/
theorem exists_eq_append_of_specifiers (h : Specifiers item ks) :
    ∃ list, ks = list ++ [.mark "\x7d"] ∧ (Shape.opt (.seq (.commaList (.one item))
      (.opt (.one (.mark ","))))).Matches list := by
  induction h with
  | close => exact ⟨[], rfl, .right .empty⟩
  | last =>
    refine ⟨[item], rfl, .left ?_⟩
    exact Shape.Matches.seq (.seq (.one item) .none) (.right .empty)
  | more h ih =>
    obtain ⟨list, rfl, hlist⟩ := ih
    refine ⟨item :: .mark "," :: list, rfl, .left ?_⟩
    rcases Shape.matches_alt_iff.mp hlist with hlist | hnone
    · obtain ⟨specifiers, comma, rfl, hspecifiers, hcomma⟩ := Shape.matches_seq_iff.mp hlist
      obtain ⟨first, more, rfl, hfirst, hmore⟩ := Shape.matches_seq_iff.mp hspecifiers
      have hpart := Shape.Matches.seq (.one (.mark ",")) hfirst
      have hall := Shape.Matches.seq (.one item) (hpart.cons_many hmore)
      simpa [Shape.commaList] using Shape.Matches.seq hall hcomma
    · obtain rfl := Shape.matches_empty_iff.mp hnone
      exact Shape.Matches.seq (.seq (.one item) .none) (.left (.one (.mark ",")))

/-- More specifiers before those that follow one. -/
theorem specifiers_append {more rest : List Kind}
    (hmore : (Shape.many (.seq (.one (.mark ",")) (.one item))).Matches more)
    (h : Specifiers item (item :: rest)) : Specifiers item (item :: (more ++ rest)) := by
  generalize hshape : Shape.many _ = shape at hmore
  induction hmore generalizing rest with
  | none => exact h
  | more _ hpart ih =>
    obtain rfl := Shape.many.inj hshape
    obtain ⟨comma, specifier, rfl, hcomma, hspecifier⟩ := Shape.matches_seq_iff.mp hpart
    obtain rfl := Shape.matches_one_iff.mp hcomma
    obtain rfl := Shape.matches_one_iff.mp hspecifier
    rw [List.append_assoc]
    exact ih (.more h) rfl
  | _ => cases hshape

/-- The shape of a list in braces. -/
theorem matches_braced_iff (item : Kind) {ks : List Kind} :
    (Shape.braced (.one item)).Matches ks ↔
      ∃ rest, ks = .mark "\x7b" :: rest ∧ Specifiers item rest := by
  constructor
  · intro h
    obtain ⟨opening, rest, rfl, hopening, hrest⟩ := Shape.matches_seq_iff.mp h
    obtain rfl := Shape.matches_one_iff.mp hopening
    obtain ⟨list, close, rfl, hlist, hclose⟩ := Shape.matches_seq_iff.mp hrest
    obtain rfl := Shape.matches_one_iff.mp hclose
    refine ⟨_, rfl, ?_⟩
    rcases Shape.matches_alt_iff.mp hlist with hlist | hnone
    · obtain ⟨specifiers, comma, rfl, hspecifiers, hcomma⟩ := Shape.matches_seq_iff.mp hlist
      obtain ⟨first, more, rfl, hfirst, hmore⟩ := Shape.matches_seq_iff.mp hspecifiers
      obtain rfl := Shape.matches_one_iff.mp hfirst
      rw [List.append_assoc, List.append_assoc, List.singleton_append]
      refine specifiers_append hmore ?_
      rcases Shape.matches_alt_iff.mp hcomma with hcomma | hnone
      · obtain rfl := Shape.matches_one_iff.mp hcomma
        exact .more .close
      · obtain rfl := Shape.matches_empty_iff.mp hnone
        exact .last
    · obtain rfl := Shape.matches_empty_iff.mp hnone
      exact .close
  · rintro ⟨rest, rfl, hrest⟩
    obtain ⟨list, rfl, hlist⟩ := exists_eq_append_of_specifiers hrest
    exact .seq (.one _) (.seq hlist (.one _))

/-- Behind a specifier and a comma may follow what may follow at the start. -/
theorem specifiers_cons_iff (hitem : item.isSpecifier = true) :
    Specifiers item (item :: .mark "," :: ks) ↔ Specifiers item ks := by
  refine ⟨fun h => ?_, .more⟩
  generalize hall : item :: .mark "," :: ks = all at h
  cases h with
  | close =>
    obtain ⟨rfl, -⟩ := List.cons.inj hall
    cases hitem
  | last => simp at hall
  | more h =>
    simp only [List.cons.injEq, true_and] at hall
    exact hall ▸ h

/-- A list of specifiers does not start with a comma. -/
theorem not_specifiers_comma (hitem : item.isSpecifier = true) :
    ¬ Specifiers item (.mark "," :: ks) := by
  intro h
  generalize hall : Kind.mark "," :: ks = all at h
  cases h with
  | close => simp at hall
  | last | more =>
    obtain ⟨rfl, -⟩ := List.cons.inj hall
    cases hitem

section

variable (hitem : item.isSpecifier = true) (hgoes : ∀ t, goes t = true → t.kind = item)

include hitem hgoes

/-- What goes is an item. -/
theorem isItem_of_goes (t : Tree) (h : goes t = true) : isItem t = true := by
  rw [Kind.isSpecifier, Bool.or_eq_true, beq_iff_eq, beq_iff_eq] at hitem
  rcases hitem with rfl | rfl <;> simp [isItem, hgoes t h, Kind.isLoose]

/-- Only specifiers go. -/
theorem goes_eq_false (h : t.kind.isSpecifier = false) : goes t = false :=
  Bool.eq_false_iff.mpr fun ht => by simp [hgoes t ht, hitem] at h

/-- Nothing goes where a list is closed. -/
theorem remains_of_close (skips : Bool) (h : Forest.kinds ts = [.mark "\x7d"]) :
    remains goes skips ts = [.mark "\x7d"] ∧ strandsComma goes ts = false ∧
      hasLateComma ts = false := by
  obtain ⟨front, close, back, rfl, hfront, hkind, -, hback⟩ := exists_of_kinds_eq_cons h
  have hback := all_isLoose_of_kinds_eq_nil hback
  have hitems := isItem_of_goes hitem hgoes
  have hstays : goes close = false := goes_eq_false hitem hgoes (by rw [hkind]; rfl)
  have hloose : close.kind.isLoose = false := by rw [hkind]; rfl
  refine ⟨?_, ?_, ?_⟩
  · simp [remains_append_cons _ hitems hfront hloose, hstays, hkind, remains_of_all _ hitems hback]
  · rw [strandsComma_append _ hfront, strandsComma, hstays, strandsComma_of_all _ hback]
    simp
  · simp [hasLateComma_append hfront hloose, hkind]

/-- A list of specifiers that loses some is one still, unless a comma stays behind. -/
theorem specifiers_remains_iff (h : Specifiers item (Forest.kinds ts)) :
    Specifiers item (remains goes false ts) ↔ strandsComma goes ts = false := by
  have hitems := isItem_of_goes hitem hgoes
  have hne : item ≠ .namespaceImport := by
    rintro rfl
    cases hitem
  have hcomma : item ≠ .mark "," := by
    rintro rfl
    cases hitem
  generalize hks : Forest.kinds ts = ks at h
  induction h generalizing ts with
  | close =>
    obtain ⟨hremains, hstrands, -⟩ := remains_of_close hitem hgoes false hks
    rw [hremains, hstrands]
    exact iff_of_true .close rfl
  | last =>
    obtain ⟨front, s, rest, rfl, hfront, hkind, hloose, hrest⟩ := exists_of_kinds_eq_cons hks
    rw [← hkind] at hloose
    have hend (skips : Bool) := (remains_of_close hitem hgoes skips hrest).1
    obtain ⟨-, hstrands, hlate⟩ := remains_of_close hitem hgoes false hrest
    rw [remains_append_cons _ hitems hfront hloose, hend, hend, strandsComma_append _ hfront,
      strandsComma, hlate, hstrands, hkind, Bool.and_false, Bool.or_false]
    refine iff_of_true ?_ rfl
    split
    · exact .close
    · rw [Bool.false_and, Bool.false_and, if_neg Bool.false_ne_true]
      exact .last
  | @more ks _ ih =>
    obtain ⟨front, s, rest, rfl, hfront, hkind, hloose, hrest⟩ := exists_of_kinds_eq_cons hks
    obtain ⟨between, comma, back, rfl, hbetween, hmark, hloose', hback⟩ :=
      exists_of_kinds_eq_cons hrest
    rw [← hkind] at hloose
    rw [← hmark] at hloose'
    have hstays : goes comma = false := goes_eq_false hitem hgoes (by rw [hmark]; rfl)
    have hlater (skips : Bool) := remains_append_cons skips hitems hbetween hloose' back
    rw [remains_append_cons _ hitems hfront hloose, hlater, hlater, strandsComma_append _ hfront,
      strandsComma, hasLateComma_append hbetween hloose', strandsComma_append _ hbetween,
      strandsComma, hstays, hkind, hmark]
    cases hgone : goes s with
    | true =>
      cases between with
      | nil =>
        -- the comma goes along with the specifier
        simpa [hne] using ih hback
      | cons u between => simp [hitems s hgone, not_specifiers_comma hitem]
    | false => simpa [hcomma, specifiers_cons_iff hitem] using ih hback

/-- No namespace goes from a list. -/
theorem strandsName_eq_false (ts : Forest) : strandsName goes ts = false := by
  have hnone : ts.any (fun t => t.kind == .namespaceImport && goes t) = false := by
    rw [List.any_eq_false]
    intro u _ hu
    rw [Bool.and_eq_true, beq_iff_eq] at hu
    rw [goes_eq_false hitem hgoes (by rw [hu.1]; rfl)] at hu
    cases hu.2
  rw [strandsName, hnone, Bool.and_false]

/-- A list in braces keeps its shape unless a comma stays behind. -/
theorem matches_remains_braced (h : (Shape.braced (.one item)).Matches (Forest.kinds ts)) :
    (Shape.braced (.one item)).Matches (remains goes false ts) ↔
      strandsComma goes ts = false ∧ strandsName goes ts = false := by
  rw [strandsName_eq_false hitem hgoes, and_iff_left rfl]
  obtain ⟨rest, hks, hrest⟩ := (matches_braced_iff item).mp h
  obtain ⟨front, opening, back, rfl, hfront, hkind, hloose, rfl⟩ := exists_of_kinds_eq_cons hks
  rw [← hkind] at hloose
  have hstays : goes opening = false := goes_eq_false hitem hgoes (by rw [hkind]; rfl)
  rw [remains_append_cons _ (isItem_of_goes hitem hgoes) hfront hloose,
    strandsComma_append _ hfront, strandsComma, hstays, hkind, matches_braced_iff]
  simpa using specifiers_remains_iff hitem hgoes hrest

end

end

/-- The shape of an import clause. -/
theorem matches_importClause_iff {s : Shape} (hs : s ∈ Kind.shape? .importClause) :
    s.Matches ks ↔ ks ∈ [[.namespaceImport], [.namedImports], [.identifier],
      [.identifier, .mark ",", .namespaceImport], [.identifier, .mark ",", .namedImports]] := by
  obtain rfl := Option.some.inj hs
  simp only [Shape.opt, Shape.matches_alt_iff, Shape.matches_seq_iff, Shape.matches_one_iff,
    Shape.matches_empty_iff, List.mem_cons, List.not_mem_nil, or_false]
  constructor
  · rintro (rfl | rfl | ⟨_, _, rfl, rfl, ⟨_, _, rfl, rfl, rfl | rfl⟩ | rfl⟩) <;> simp
  · rintro (rfl | rfl | rfl | rfl | rfl)
    · exact .inl rfl
    · exact .inr (.inl rfl)
    · exact .inr (.inr ⟨_, [], rfl, rfl, .inr rfl⟩)
    · exact .inr (.inr ⟨_, _, rfl, rfl, .inl ⟨_, _, rfl, rfl, .inl rfl⟩⟩)
    · exact .inr (.inr ⟨_, _, rfl, rfl, .inl ⟨_, _, rfl, rfl, .inr rfl⟩⟩)

/-- Comments are neither names nor namespaces. -/
theorem any_kind_append {kind : Kind} (hkind : kind.isLoose = false)
    (hfront : ∀ u ∈ front, u.kind.isLoose = true) (p : Tree → Bool) (ts : Forest) :
    (front ++ ts).any (fun t => t.kind == kind && p t) = ts.any fun t => t.kind == kind && p t := by
  have hnone : front.any (fun t => t.kind == kind && p t) = false := by
    rw [List.any_eq_false]
    intro u hu
    have hne : u.kind ≠ kind := by
      rintro rfl
      rw [hfront u hu] at hkind
      cases hkind
    simp [hne]
  rw [List.any_append, hnone, Bool.false_or]

/-- Loose trees are of no kind that is in a shape. -/
theorem any_kind_of_all {kind : Kind} (hkind : kind.isLoose = false)
    (hts : ∀ u ∈ ts, u.kind.isLoose = true) (p : Tree → Bool) :
    ts.any (fun t => t.kind == kind && p t) = false := by
  simpa using any_kind_append hkind hts p []

/-- There are no items among comments. -/
theorem forall_items {p : Tree → Prop} (hts : ∀ u ∈ ts, u.kind.isLoose = true) :
    ∀ u ∈ ts, isItem u = true → p u := by
  intro u hu hitem
  rw [isItem, hts u hu] at hitem
  cases hitem

/-- The only item of a list stays. -/
theorem remains_of_single {k : Kind} (hgoes : ∀ t, goes t = true → isItem t = true)
    (h : Forest.kinds ts = [k]) (hstays : ¬ ∀ t ∈ ts, isItem t = true → goes t = true) :
    remains goes false ts = [k] ∧ strandsComma goes ts = false ∧ strandsName goes ts = false := by
  obtain ⟨front, t, back, rfl, hfront, rfl, hloose, hback⟩ := exists_of_kinds_eq_cons h
  have hback := all_isLoose_of_kinds_eq_nil hback
  have hstay : goes t = false := by
    rw [Bool.eq_false_iff]
    intro hgone
    exact hstays (List.forall_mem_append.mpr ⟨forall_items hfront,
      List.forall_mem_cons.mpr ⟨fun _ => hgone, forall_items hback⟩⟩)
  refine ⟨?_, ?_, ?_⟩
  · simp [remains_append_cons _ hgoes hfront hloose, hstay, remains_of_all _ hgoes hback]
  · rw [strandsComma_append _ hfront, strandsComma, hstay, strandsComma_of_all _ hback]
    simp
  · rw [strandsName, any_kind_append (rfl : Kind.namespaceImport.isLoose = false) hfront,
      List.any_cons, hstay, any_kind_of_all rfl hback]
    simp

section

variable {between between' back : Forest} {name comma bound : Tree}
  (hfront : ∀ u ∈ front, u.kind.isLoose = true) (hname : name.kind = .identifier)
  (hbetween : ∀ u ∈ between, u.kind.isLoose = true) (hcomma : comma.kind = .mark ",")
  (hbetween' : ∀ u ∈ between', u.kind.isLoose = true)
  (hbound : bound.kind = .namespaceImport ∨ bound.kind = .namedImports)
  (hback : ∀ u ∈ back, u.kind.isLoose = true)

include hfront hname hbetween hcomma hbetween' hbound hback

/-- What is left of a name and another part of a clause. -/
theorem remains_of_pair (hgoes : ∀ t, goes t = true → isItem t = true) :
    remains goes false (front ++ name :: (between ++ comma :: (between' ++ bound :: back))) =
      (if goes name then [] else [.identifier]) ++
        (if goes name && between.isEmpty then [] else [.mark ","]) ++
          if goes bound then [] else [bound.kind] := by
  have hname' : name.kind.isLoose = false := by rw [hname]; rfl
  have hcomma' : comma.kind.isLoose = false := by rw [hcomma]; rfl
  have hbound' : bound.kind.isLoose = false := by rcases hbound with h | h <;> rw [h] <;> rfl
  have hstays : goes comma = false := by
    rw [Bool.eq_false_iff]
    intro hgone
    have hitem := hgoes comma hgone
    simp [isItem, hcomma] at hitem
  simp only [remains_append_cons _ hgoes hfront hname',
    remains_append_cons _ hgoes hbetween hcomma',
    remains_append_cons _ hgoes hbetween' hbound', remains_of_all _ hgoes hback, hname, hcomma,
    hstays]
  cases goes name <;> cases goes bound <;> cases between.isEmpty <;> simp

omit hbound in
/-- A name that goes leaves its comma to the comments before that. -/
theorem strandsComma_of_pair (gone : Tree → Bool) :
    strandsComma gone (front ++ name :: (between ++ comma :: (between' ++ bound :: back))) =
      (gone name && !between.isEmpty) := by
  have hcomma' : comma.kind.isLoose = false := by rw [hcomma]; rfl
  have hitem : isItem name = true := by simp [isItem, hname, Kind.isLoose]
  have hitem' : isItem comma = false := by simp [isItem, hcomma]
  simp only [strandsComma_append _ hfront, strandsComma, strandsComma_append _ hbetween,
    strandsComma_append _ hbetween', strandsComma_of_all _ hback,
    hasLateComma_append hbetween hcomma', hasLateComma_of_all hback, hitem, hitem', hcomma]
  simp

/-- A name is stranded if it stays and the namespace behind it goes. -/
theorem strandsName_of_pair (gone : Tree → Bool) :
    strandsName gone (front ++ name :: (between ++ comma :: (between' ++ bound :: back))) =
      (!gone name && (bound.kind == .namespaceImport && gone bound)) := by
  have hidentifier : Kind.identifier.isLoose = false := rfl
  have hnamespace : Kind.namespaceImport.isLoose = false := rfl
  have hmark : (Kind.mark "," == .identifier) = false := rfl
  have hmark' : (Kind.mark "," == .namespaceImport) = false := rfl
  have hne : (Kind.identifier == .namespaceImport) = false := rfl
  have hne' : (bound.kind == .identifier) = false := by
    rcases hbound with h | h <;> rw [h] <;> rfl
  simp only [strandsName, List.any_cons, any_kind_append hidentifier hfront,
    any_kind_append hnamespace hfront, any_kind_append hidentifier hbetween,
    any_kind_append hnamespace hbetween, any_kind_append hidentifier hbetween',
    any_kind_append hnamespace hbetween', any_kind_of_all hidentifier hback,
    any_kind_of_all hnamespace hback, hname, hcomma, hmark, hmark', hne, hne']
  simp

/-- Of a name and another part, one stays, and a comma only between the two. -/
theorem matches_remains_of_pair {s : Shape} (hs : s ∈ Kind.shape? .importClause)
    (hgoes : ∀ t, goes t = true → t.kind = .identifier ∨ t.kind = .namespaceImport)
    (hstays : ¬ (goes name = true ∧ goes bound = true)) :
    s.Matches (remains goes false
        (front ++ name :: (between ++ comma :: (between' ++ bound :: back)))) ↔
      strandsComma goes (front ++ name :: (between ++ comma :: (between' ++ bound :: back))) =
          false ∧
        strandsName goes (front ++ name :: (between ++ comma :: (between' ++ bound :: back))) =
          false := by
  rw [remains_of_pair hfront hname hbetween hcomma hbetween' hbound hback (isItem_of_part hgoes),
    strandsComma_of_pair hfront hname hbetween hcomma hbetween' hback,
    strandsName_of_pair hfront hname hbetween hcomma hbetween' hbound hback,
    matches_importClause_iff hs]
  rcases hbound with h | h
  · rw [h]
    revert hstays
    generalize goes name = gone
    generalize goes bound = gone'
    cases gone <;> cases gone' <;> cases between.isEmpty <;> simp
  · rw [h, goes_list hgoes h]
    cases goes name <;> cases between.isEmpty <;> simp

end

/-- The parts of a clause: one, or a name and another one after a comma. -/
theorem kinds_importClause_cases {s : Shape} (hs : s ∈ Kind.shape? .importClause)
    (h : s.Matches ks) :
    (∃ k, ks = [k] ∧ s.Matches [k]) ∨
      ∃ k, ks = [.identifier, .mark ",", k] ∧ (k = .namespaceImport ∨ k = .namedImports) := by
  have hmem := (matches_importClause_iff hs).mp h
  simp only [List.mem_cons, List.not_mem_nil, or_false] at hmem
  rcases hmem with rfl | rfl | rfl | rfl | rfl
  · exact .inl ⟨_, rfl, h⟩
  · exact .inl ⟨_, rfl, h⟩
  · exact .inl ⟨_, rfl, h⟩
  · exact .inr ⟨_, rfl, .inl rfl⟩
  · exact .inr ⟨_, rfl, .inr rfl⟩

/-- A clause that loses a part keeps its shape unless a comma stays behind. -/
theorem matches_remains_importClause {s : Shape} (hs : s ∈ Kind.shape? .importClause)
    (hgoes : ∀ t, goes t = true → t.kind = .identifier ∨ t.kind = .namespaceImport)
    (h : s.Matches (Forest.kinds ts))
    (hstays : ¬ ∀ t ∈ ts, isItem t = true → goes t = true) :
    s.Matches (remains goes false ts) ↔
      strandsComma goes ts = false ∧ strandsName goes ts = false := by
  rcases kinds_importClause_cases hs h with ⟨k, hk, hsingle⟩ | ⟨k, hk, hkinds⟩
  · obtain ⟨hremains, hcomma, hname⟩ := remains_of_single (isItem_of_part hgoes) hk hstays
    rw [hremains, hcomma, hname]
    exact iff_of_true hsingle ⟨rfl, rfl⟩
  · obtain ⟨front, name, rest, rfl, hfront, hname, -, hrest⟩ := exists_of_kinds_eq_cons hk
    obtain ⟨between, comma, rest, rfl, hbetween, hcomma, -, hrest⟩ :=
      exists_of_kinds_eq_cons hrest
    obtain ⟨between', bound, back, rfl, hbetween', rfl, -, hback⟩ :=
      exists_of_kinds_eq_cons hrest
    have hback := all_isLoose_of_kinds_eq_nil hback
    refine matches_remains_of_pair hfront hname hbetween hcomma hbetween' hkinds hback hs hgoes ?_
    rintro ⟨hgone, hgone'⟩
    -- these are all the items
    refine hstays (List.forall_mem_append.mpr ⟨forall_items hfront, List.forall_mem_cons.mpr
      ⟨fun _ => hgone, List.forall_mem_append.mpr ⟨forall_items hbetween,
        List.forall_mem_cons.mpr ⟨fun hitem => ?_, List.forall_mem_append.mpr
          ⟨forall_items hbetween', List.forall_mem_cons.mpr
            ⟨fun _ => hgone', forall_items hback⟩⟩⟩⟩⟩⟩)
    simp [isItem, hcomma] at hitem

end ScriptModules.Strip

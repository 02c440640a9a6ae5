import ScriptModules.Proofs.Grammar.Trees
import ScriptModules.Strip.Survey

/-!
# Lists that lose items

An item of a clause goes along with the comma that follows it directly, but a namespace goes alone.
The ranges of the items that go cover these items and their commas, and leave the rest of the list
alone.
-/

namespace ScriptModules.Strip

open Grammar (Forest Kind Ordered Shape Span Tree)

/-- A tree goes when a range covers it. -/
def isCovered (ranges : List Span) (t : Tree) : Bool :=
  ranges.any fun r => r.start ≤ t.span.start && t.span.stop ≤ r.stop

/-- What stands in a list beside commas and comments. -/
def isItem (t : Tree) : Bool := !t.kind.isLoose && t.kind != .mark ","

/-- A comma follows, but not before comments. -/
def hasLateComma (ts : Forest) : Bool :=
  ts.head?.any (·.kind.isLoose) &&
    (ts.dropWhile (·.kind.isLoose)).head?.any (·.kind == .mark ",")

/-- Some item goes without the comma after it, since comments stand before that. -/
def strandsComma (gone : Tree → Bool) : Forest → Bool
  | [] => false
  | t :: ts => isItem t && gone t && hasLateComma ts || strandsComma gone ts

/-- A name stays while a namespace goes, and with that only what follows its comma. -/
def strandsName (gone : Tree → Bool) (ts : Forest) : Bool :=
  ts.any (fun t => t.kind == .identifier && !gone t) &&
    ts.any fun t => t.kind == .namespaceImport && gone t

/-- The range of an item that goes. A namespace does not take a comma along. -/
def partRange (next? : Option Tree) (t : Tree) : Span :=
  if t.kind = .namespaceImport then t.span else itemRange next? t

/-- The ranges of the items that go. -/
def rangesOf (goes : Tree → Bool) (ts : Forest) : List Span :=
  ((withNext ts).filter (goes ·.1)).map fun (t, next?) => partRange next? t

/-- The kinds that are left of a list. `skips` tells that what stood before took the next comma
along. -/
def remains (goes : Tree → Bool) : Bool → Forest → List Kind
  | _, [] => []
  | skips, t :: ts =>
    if goes t then remains goes (t.kind != .namespaceImport) ts
    else if skips && t.kind == .mark "," then remains goes false ts
    else Forest.kinds [t] ++ remains goes false ts

variable {goes : Tree → Bool} {ranges : List Span} {t u : Tree} {ts us : Forest} {low high : Nat}
  {ks : List Kind}

/-- An item is not loose. -/
theorem isLoose_of_isItem (h : isItem t = true) : t.kind.isLoose = false := by
  rw [isItem, Bool.and_eq_true, Bool.not_eq_true'] at h
  exact h.1

section

variable (hgoes : ∀ t, goes t = true → t.kind = .identifier ∨ t.kind = .namespaceImport)

include hgoes

/-- What goes is an item. -/
theorem isItem_of_part (t : Tree) (h : goes t = true) : isItem t = true := by
  rcases hgoes t h with hkind | hkind <;> simp [isItem, hkind, Kind.isLoose]

/-- A list is no part that goes. -/
theorem goes_list (h : t.kind = .namedImports) : goes t = false := by
  rw [Bool.eq_false_iff]
  intro hgone
  rcases hgoes t hgone with hkind | hkind <;> rw [h] at hkind <;> cases hkind

end

/-- A tree is covered if it lies within one of the ranges. -/
theorem isCovered_iff :
    isCovered ranges t = true ↔ ∃ r ∈ ranges, r.start ≤ t.span.start ∧ t.span.stop ≤ r.stop := by
  simp [isCovered]

/-- Each tree stands in front of the next one. -/
theorem mem_withNext {next? : Option Tree} :
    (t, next?) ∈ withNext ts ↔ ∃ front back, ts = front ++ t :: back ∧ next? = back.head? := by
  induction ts with
  | nil => simp [withNext]
  | cons u ts ih =>
    rw [withNext, List.mem_cons, ih]
    constructor
    · rintro (heq | ⟨front, back, rfl, rfl⟩)
      · obtain ⟨rfl, rfl⟩ := Prod.mk.inj heq
        exact ⟨[], ts, rfl, rfl⟩
      · exact ⟨u :: front, back, rfl, rfl⟩
    · rintro ⟨front, back, heq, rfl⟩
      cases front with
      | nil =>
        obtain ⟨rfl, rfl⟩ := List.cons.inj heq
        exact Or.inl rfl
      | cons v front =>
        obtain ⟨rfl, rfl⟩ := List.cons.inj heq
        exact Or.inr ⟨front, back, rfl, rfl⟩

/-- What stands in front of a next tree is one of the trees. -/
theorem mem_of_mem_withNext {next? : Option Tree} (h : (t, next?) ∈ withNext ts) : t ∈ ts := by
  obtain ⟨front, back, rfl, -⟩ := mem_withNext.mp h
  simp

/-- The next tree is one of the trees. -/
theorem next_mem_of_mem_withNext {next? : Option Tree} {next : Tree}
    (h : (t, next?) ∈ withNext ts) (hnext : next ∈ next?) : next ∈ ts := by
  obtain ⟨front, back, rfl, rfl⟩ := mem_withNext.mp h
  exact List.mem_append_right _ (List.mem_cons_of_mem _ (List.mem_of_mem_head? hnext))

/-- Every tree has a next one, or is the last. -/
theorem exists_mem_withNext (h : t ∈ ts) : ∃ next?, (t, next?) ∈ withNext ts := by
  obtain ⟨front, back, rfl⟩ := List.append_of_mem h
  exact ⟨back.head?, mem_withNext.mpr ⟨front, back, rfl, rfl⟩⟩

/-- The ranges that go are those of the items that go. -/
theorem mem_rangesOf {r : Span} :
    r ∈ rangesOf goes ts ↔
      ∃ t next?, (t, next?) ∈ withNext ts ∧ goes t = true ∧ partRange next? t = r := by
  rw [rangesOf, List.mem_map]
  constructor
  · rintro ⟨⟨t, next?⟩, hmem, heq⟩
    exact ⟨t, next?, (List.mem_filter.mp hmem).1, (List.mem_filter.mp hmem).2, heq⟩
  · rintro ⟨t, next?, hmem, hgoes, heq⟩
    exact ⟨(t, next?), List.mem_filter.mpr ⟨hmem, hgoes⟩, heq⟩

/-- The range of the first item comes first, if it goes. -/
theorem rangesOf_cons (goes : Tree → Bool) (t : Tree) (ts : Forest) :
    rangesOf goes (t :: ts) =
      (if goes t then [partRange ts.head? t] else []) ++ rangesOf goes ts := by
  rw [rangesOf, withNext, List.filter_cons]
  split <;> rfl

/-- A range through a mark stops with the mark if it comes next, and with the tree otherwise. -/
theorem rangeThrough_cases (mark : String) (next? : Option Tree) (t : Tree) :
    rangeThrough mark next? t = t.span ∨ ∃ next ∈ next?, next.kind = .mark mark ∧
      rangeThrough mark next? t = ⟨t.span.start, next.span.stop⟩ := by
  unfold rangeThrough
  split
  · split
    · exact .inr ⟨_, rfl, beq_iff_eq.mp ‹_›, rfl⟩
    · exact .inl rfl
  · exact .inl rfl

/-- The range of an item stops with the item or with the next tree. -/
theorem partRange_cases (next? : Option Tree) (t : Tree) :
    partRange next? t = t.span ∨
      ∃ next ∈ next?, partRange next? t = ⟨t.span.start, next.span.stop⟩ := by
  unfold partRange
  split
  · exact .inl rfl
  · exact (rangeThrough_cases ..).imp_right fun ⟨next, hnext, _, heq⟩ => ⟨next, hnext, heq⟩

/-- The range of an item starts with the item. -/
theorem start_partRange (next? : Option Tree) (t : Tree) :
    (partRange next? t).start = t.span.start := by
  rcases partRange_cases next? t with h | ⟨next, -, h⟩ <;> rw [h]

/-- The range of an item stops no earlier than the item. -/
theorem stop_le_partRange (h : Ordered low high (t :: ts)) :
    t.span.stop ≤ (partRange ts.head? t).stop := by
  rcases partRange_cases ts.head? t with heq | ⟨next, hnext, heq⟩ <;> rw [heq]
  have hmem := h.2.2.of_mem (List.mem_of_mem_head? hnext)
  exact hmem.1.trans hmem.2.1

/-- The range of an item that goes stretches from an item to an item. -/
theorem exists_of_mem_rangesOf {r : Span} (h : r ∈ rangesOf goes ts) :
    ∃ v ∈ ts, ∃ w ∈ ts, r = ⟨v.span.start, w.span.stop⟩ := by
  obtain ⟨t, next?, hmem, -, rfl⟩ := mem_rangesOf.mp h
  have ht := mem_of_mem_withNext hmem
  rcases partRange_cases next? t with heq | ⟨next, hnext, heq⟩
  · exact ⟨t, ht, t, ht, heq⟩
  · exact ⟨t, ht, next, next_mem_of_mem_withNext hmem hnext, heq⟩

/-- A tree is covered by ranges if it is by some of them. -/
theorem isCovered_append (ranges others : List Span) (t : Tree) :
    isCovered (ranges ++ others) t = (isCovered ranges t || isCovered others t) := List.any_append

/-- Only what is said of items decides whether a comma is stranded. -/
theorem strandsComma_congr {p q : Tree → Bool} (h : ∀ u ∈ ts, isItem u = true → p u = q u) :
    strandsComma p ts = strandsComma q ts := by
  induction ts with
  | nil => rfl
  | cons t ts ih =>
    rw [strandsComma, strandsComma, ih fun u hu => h u (List.mem_cons_of_mem _ hu)]
    cases hitem : isItem t with
    | true => rw [h t List.mem_cons_self hitem]
    | false => rfl

/-- Only what is said of items decides whether a name is stranded. -/
theorem strandsName_congr {p q : Tree → Bool} (h : ∀ u ∈ ts, isItem u = true → p u = q u) :
    strandsName p ts = strandsName q ts := by
  have hany {k : Kind} {a b : Tree → Bool} (hk : k.isLoose = false) (hcomma : k ≠ .mark ",")
      (h : ∀ u ∈ ts, isItem u = true → a u = b u) :
      ts.any (fun t => t.kind == k && a t) = ts.any fun t => t.kind == k && b t := by
    rw [Bool.eq_iff_iff, List.any_eq_true, List.any_eq_true]
    refine exists_congr fun u => and_congr_right fun hu => ?_
    rw [Bool.and_eq_true, Bool.and_eq_true, beq_iff_eq]
    refine and_congr_right fun hkind => ?_
    rw [h u hu (by simp [isItem, hkind, hk, hcomma])]
  rw [strandsName, strandsName, hany rfl (by decide) h,
    hany rfl (by decide) fun u hu hitem => congrArg not (h u hu hitem)]

/-- Trees that are more than comments have text. -/
def Filled (ts : Forest) : Prop := ∀ t ∈ ts, t.kind.isLoose = false → t.span.start < t.span.stop

/-- No range of a list covers what stands before the list. -/
theorem isCovered_rangesOf_before (hordered : Ordered low high ts)
    (hfilled : t.span.start < t.span.stop) (hbefore : t.span.stop ≤ low) :
    isCovered (rangesOf goes ts) t = false := by
  rw [Bool.eq_false_iff]
  intro hcovered
  obtain ⟨r, hr, hstart, -⟩ := isCovered_iff.mp hcovered
  obtain ⟨u, next?, hmem, -, rfl⟩ := mem_rangesOf.mp hr
  have := (hordered.of_mem (mem_of_mem_withNext hmem)).1
  rw [start_partRange] at hstart
  omega

/-- Of what follows an item, its range covers the comma alone. -/
theorem isCovered_partRange (hordered : Ordered low high (t :: ts)) (hfilled : Filled ts)
    (hu : u ∈ ts) (hloose : u.kind.isLoose = false) :
    isCovered [partRange ts.head? t] u = true ↔
      t.kind ≠ .namespaceImport ∧ ts.head? = some u ∧ u.kind = .mark "," := by
  have hspan := hfilled u hu hloose
  have hafter := (hordered.2.2.of_mem hu).1
  have hself : ¬ u.span.stop ≤ t.span.stop := by omega
  rw [isCovered_iff]
  simp only [List.mem_singleton, exists_eq_left, start_partRange]
  have hstart : t.span.start ≤ u.span.start := hordered.2.1.trans hafter
  unfold partRange itemRange rangeThrough
  split
  · rename_i hkind
    exact iff_of_false (fun h => hself h.2) fun h => h.1 hkind
  · rename_i hkind
    cases ts with
    | nil => cases hu
    | cons n rest =>
      simp only [List.head?_cons, beq_iff_eq, Option.some.injEq]
      split
      · rename_i hcomma
        constructor
        · rintro ⟨-, hstop⟩
          rcases List.mem_cons.mp hu with rfl | hu
          · exact ⟨hkind, rfl, hcomma⟩
          · have hlow := (hordered.2.2.2.2.of_mem hu).1
            have hhigh : u.span.stop ≤ n.span.stop := hstop
            omega
        · rintro ⟨-, rfl, -⟩
          exact ⟨hstart, Nat.le_refl _⟩
      · rename_i hcomma
        constructor
        · rintro ⟨-, hstop⟩
          exact absurd hstop hself
        · rintro ⟨-, rfl, hcomma'⟩
          exact absurd hcomma' hcomma

/-- The first tree is covered if it goes. -/
theorem isCovered_rangesOf_self (hordered : Ordered low high (t :: ts))
    (hfilled : t.span.start < t.span.stop) :
    isCovered (rangesOf goes (t :: ts)) t = goes t := by
  rw [rangesOf_cons, isCovered_append,
    isCovered_rangesOf_before hordered.2.2 hfilled (Nat.le_refl _), Bool.or_false]
  cases goes t
  · rfl
  · simp [isCovered, start_partRange, stop_le_partRange hordered]

/-- A later tree is covered by the later ranges, or is the comma that the first takes along. -/
theorem isCovered_rangesOf_of_mem (hordered : Ordered low high (t :: ts)) (hfilled : Filled ts)
    (hu : u ∈ ts) (hloose : u.kind.isLoose = false) :
    isCovered (rangesOf goes (t :: ts)) u = true ↔ isCovered (rangesOf goes ts) u = true ∨
      goes t = true ∧ t.kind ≠ .namespaceImport ∧ ts.head? = some u ∧ u.kind = .mark "," := by
  rw [rangesOf_cons, isCovered_append, Bool.or_eq_true, or_comm]
  refine or_congr_right ?_
  cases goes t
  · simp [isCovered]
  · simp [isCovered_partRange hordered hfilled hu hloose]

/-- The ranges of a list cover the items that go and no others. -/
theorem isCovered_rangesOf (hordered : Ordered low high ts) (hfilled : Filled ts) (hu : u ∈ ts)
    (hitem : isItem u = true) : isCovered (rangesOf goes ts) u = goes u := by
  rw [isItem, Bool.and_eq_true, Bool.not_eq_true', bne_iff_ne] at hitem
  induction ts generalizing low with
  | nil => cases hu
  | cons t ts ih =>
    rcases List.mem_cons.mp hu with rfl | hu
    · exact isCovered_rangesOf_self hordered (hfilled u List.mem_cons_self hitem.1)
    · have hfilled' : Filled ts := fun u hu => hfilled u (List.mem_cons_of_mem _ hu)
      rw [← ih hordered.2.2 hfilled' hu, Bool.eq_iff_iff,
        isCovered_rangesOf_of_mem hordered hfilled' hu hitem.1,
        or_iff_left fun h => hitem.2 h.2.2.2]

/-- What is left of trees is what is left of the first and of the others. -/
theorem kinds_filter_cons (p : Tree → Bool) (t : Tree) (ts : Forest) :
    Forest.kinds ((t :: ts).filter p) =
      (if p t then Forest.kinds [t] else []) ++ Forest.kinds (ts.filter p) := by
  rw [List.filter_cons]
  split
  · rw [← Forest.kinds_append, List.singleton_append]
  · rfl

/-- What is left of a list in its place, when some ranges cover what the ranges of the list do, and
the comma in front where the item before takes that along. -/
theorem kinds_left {skips : Bool} (hgoes : ∀ t, goes t = true → isItem t = true)
    (hordered : Ordered low high ts) (hfilled : Filled ts)
    (hcovered : ∀ u ∈ ts, u.kind.isLoose = false → (isCovered ranges u = true ↔
      isCovered (rangesOf goes ts) u = true ∨
        skips = true ∧ ts.head? = some u ∧ u.kind = .mark ",")) :
    Forest.kinds (ts.filter (!isCovered ranges ·)) = remains goes skips ts := by
  induction ts generalizing skips low with
  | nil => rfl
  | cons t ts ih =>
    have hfilled' : Filled ts := fun u hu => hfilled u (List.mem_cons_of_mem _ hu)
    -- the tree in front does not come again
    have hhead {u : Tree} (hu : u ∈ ts) (hloose : u.kind.isLoose = false) :
        (t :: ts).head? ≠ some u := by
      rintro ⟨⟩
      have hspan := hfilled' t hu hloose
      have hafter := (hordered.2.2.of_mem hu).1
      omega
    have hrest {u : Tree} (hu : u ∈ ts) (hloose : u.kind.isLoose = false) :
        isCovered ranges u = true ↔ isCovered (rangesOf goes ts) u = true ∨
          goes t = true ∧ t.kind ≠ .namespaceImport ∧ ts.head? = some u ∧ u.kind = .mark "," := by
      rw [hcovered u (List.mem_cons_of_mem _ hu) hloose,
        isCovered_rangesOf_of_mem hordered hfilled' hu hloose,
        or_iff_left fun h => hhead hu hloose h.2.1]
    have hself (hloose : t.kind.isLoose = false) : isCovered ranges t = true ↔
        goes t = true ∨ skips = true ∧ t.kind = .mark "," := by
      rw [hcovered t List.mem_cons_self hloose,
        isCovered_rangesOf_self hordered (hfilled t List.mem_cons_self hloose)]
      simp
    rw [remains, kinds_filter_cons]
    by_cases hgone : goes t = true
    · have hloose := isLoose_of_isItem (hgoes t hgone)
      rw [if_pos hgone, (hself hloose).mpr (Or.inl hgone)]
      refine ih hordered.2.2 hfilled' fun u hu hu' => ?_
      rw [hrest hu hu']
      simp [hgone]
    · have hleft : Forest.kinds (ts.filter (!isCovered ranges ·)) = remains goes false ts :=
        ih hordered.2.2 hfilled' fun u hu hu' => by
          rw [hrest hu hu']
          simp [hgone]
      rw [if_neg hgone, hleft]
      cases hloose : t.kind.isLoose with
      | true =>
        have hskips : (skips && t.kind == .mark ",") = false := by
          rw [Bool.and_eq_false_iff, beq_eq_false_iff_ne]
          refine Or.inr fun hkind => ?_
          rw [hkind] at hloose
          cases hloose
        rw [hskips, Forest.kinds_singleton, hloose, if_pos rfl, ite_self]
        rfl
      | false =>
        cases hskips : (skips && t.kind == .mark ",") with
        | true =>
          rw [Bool.and_eq_true, beq_iff_eq] at hskips
          rw [(hself hloose).mpr (Or.inr hskips)]
          rfl
        | false =>
          have hstays : isCovered ranges t = false := by
            rw [Bool.eq_false_iff]
            refine fun h => ((hself hloose).mp h).elim hgone fun hcomma => ?_
            simp [hcomma] at hskips
          rw [hstays]
          rfl

end ScriptModules.Strip

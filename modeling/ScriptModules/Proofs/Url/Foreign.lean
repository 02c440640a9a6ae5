import Mathlib.Data.List.TakeWhile
import ScriptModules.Proofs.Except
import ScriptModules.Proofs.Text.Split
import ScriptModules.Specifier

/-!
# URLs of foreign schemes

A text is read as a URL of the scheme that it starts with, or not at all. What is not visible
around it, and the breaks within it, have no part in that.
-/

namespace ScriptModules.Url

/-- Blanks and control characters. -/
private def isEdge (c : Char) : Bool := c.val.toNat ≤ 0x20

/-- Everything but the breaks. -/
private def isKept (c : Char) : Bool := c != '\t' && c != '\n' && c != '\r'

/-- What is left of a text before something visible. -/
def cleanFront (cs : List Char) : List Char := (cs.dropWhile isEdge).filter isKept

/-- What is left of a text after something visible. -/
def cleanBack (cs : List Char) : List Char := (cs.reverse.dropWhile isEdge).reverse.filter isKept

@[simp] theorem cleanBack_nil : cleanBack [] = [] := rfl

/-- Something visible is kept. -/
private theorem isKept_of_visible {c : Char} (h : 0x20 < c.val.toNat) : isKept c = true := by
  simp only [isKept, Bool.and_eq_true, bne_iff_ne]
  refine ⟨⟨?_, ?_⟩, ?_⟩ <;> rintro rfl <;> exact absurd h (by decide)

/-- Nothing is left out before something visible that follows. -/
private theorem dropWhile_append_visible {visible : List Char} (hne : visible ≠ [])
    (h : ∀ c ∈ visible, isEdge c = false) (front back : List Char) :
    (front ++ (visible ++ back)).dropWhile isEdge =
      front.dropWhile isEdge ++ (visible ++ back) := by
  obtain ⟨c, rest, rfl⟩ := List.exists_cons_of_ne_nil hne
  refine Text.dropWhile_append_of_head (fun d hd => ?_) front
  obtain rfl := Option.some.inj hd
  exact h _ List.mem_cons_self

/-- A text is visible if all of its characters are. -/
theorem visible_of_all {cs : List Char} (h : cs.all (fun c => 0x20 < c.val.toNat) = true) :
    ∀ c ∈ cs, 0x20 < c.val.toNat := by
  simpa using h

/-- What starts with something visible still does. -/
theorem head?_cleanBack {cs : List Char} (h : ∀ c ∈ cs.head?, 0x20 < c.val.toNat) :
    (cleanBack cs).head? = cs.head? := by
  cases cs with
  | nil => rfl
  | cons c rest =>
    have hc : 0x20 < c.val.toNat := h c rfl
    have hedge : ∀ d ∈ [c].head?, isEdge d = false := by
      rintro d ⟨⟩
      simpa [isEdge] using hc
    rw [cleanBack, List.reverse_cons, Text.dropWhile_append_of_head hedge, List.reverse_append]
    simp [isKept_of_visible hc]

/-- Reading a text leaves visible characters as they are. -/
theorem clean_append {visible : List Char} (hne : visible ≠ [])
    (h : ∀ c ∈ visible, 0x20 < c.val.toNat) (front back : List Char) :
    clean (String.ofList (front ++ (visible ++ back))) =
      cleanFront front ++ (visible ++ cleanBack back) := by
  have hedge : ∀ c ∈ visible, isEdge c = false := by
    intro c hc
    simpa [isEdge] using h c hc
  have hkept : visible.filter isKept = visible :=
    List.filter_eq_self.mpr fun c hc => isKept_of_visible (h c hc)
  have hback (cs : List Char) : ((cs ++ (visible ++ back)).reverse.dropWhile isEdge).reverse =
      cs ++ (visible ++ (back.reverse.dropWhile isEdge).reverse) := by
    have hreverse := dropWhile_append_visible (by simpa using hne)
      (fun c hc => hedge c (List.mem_reverse.mp hc)) back.reverse cs.reverse
    rw [← List.append_assoc, List.reverse_append, List.reverse_append, hreverse]
    simp
  change ((((String.ofList _).toList.dropWhile isEdge).reverse.dropWhile isEdge).reverse.filter
    isKept) = _
  rw [String.toList_ofList, dropWhile_append_visible hne hedge, hback, List.filter_append,
    List.filter_append, hkept]
  rfl

/-- Behind something visible nothing is left out but breaks. -/
private theorem cleanBack_of_visible {cs : List Char} {c : Char} (hlast : cs.getLast? = some c)
    (hc : 0x20 < c.val.toNat) : cleanBack cs = cs.filter isKept := by
  obtain ⟨front, rfl⟩ := List.getLast?_eq_some_iff.mp hlast
  have hedge : ¬ isEdge c = true := by simpa [isEdge] using hc
  rw [cleanBack, List.reverse_append, List.reverse_singleton, List.singleton_append,
    List.dropWhile_cons_of_neg hedge, List.reverse_cons, List.reverse_reverse]

/-- What is visible after something visible is kept as it is. -/
theorem cleanBack_append {cs visible : List Char} {c : Char} (hlast : cs.getLast? = some c)
    (hc : 0x20 < c.val.toNat) (h : ∀ c ∈ visible, 0x20 < c.val.toNat) :
    cleanBack (cs ++ visible) = cleanBack cs ++ visible := by
  have hkept : visible.filter isKept = visible :=
    List.filter_eq_self.mpr fun d hd => isKept_of_visible (h d hd)
  cases hend : visible.getLast? with
  | none =>
    rw [List.getLast?_eq_none_iff.mp hend, List.append_nil, List.append_nil]
  | some d =>
    have hwhole : (cs ++ visible).getLast? = some d := by
      rw [List.getLast?_append, hend]
      rfl
    rw [cleanBack_of_visible hwhole (h d (List.mem_of_getLast? hend)),
      cleanBack_of_visible hlast hc, List.filter_append, hkept]

/-- Reading a text brings in nothing. -/
theorem clean_subset (s : String) : clean s ⊆ s.toList := by
  intro c hc
  have hback := List.mem_reverse.mp (List.mem_filter.mp hc).1
  have hfront := List.mem_reverse.mp ((List.dropWhile_sublist _).subset hback)
  exact (List.dropWhile_sublist _).subset hfront

/-- What a scheme is made of. -/
def inScheme (c : Char) : Bool := c.isAlphanum || "+-.".toList.contains c

/-- A scheme is read up to the first colon. -/
private theorem splitScheme?_cons_eq_some_iff {c : Char} {cs r : List Char} {scheme : String}
    (hc : c.isAlpha = true) :
    splitScheme? (c :: cs) = some (scheme, r) ↔ (c :: cs).dropWhile inScheme = ':' :: r ∧
      String.ofList (((c :: cs).takeWhile inScheme).map Char.toLower) = scheme := by
  have hname : (fun d : Char => d.isAlphanum || "+-.".toList.contains d) = inScheme := rfl
  rw [← Text.drop_length_takeWhile, splitScheme?, hc, Bool.not_true, if_neg Bool.false_ne_true,
    hname]
  dsimp only
  split
  · rename_i r' hr'
    rw [hr', Option.some.injEq, Prod.mk.injEq, List.cons.injEq, and_comm]
    simp only [true_and]
  · rename_i hno
    refine iff_of_false (by simp) ?_
    intro h
    exact hno r h.1

/-- A scheme starts with a letter and ends before a colon. -/
theorem splitScheme?_eq_some_iff {cs r : List Char} {scheme : String} :
    splitScheme? cs = some (scheme, r) ↔ ∃ name, cs = name ++ ':' :: r ∧
      (∃ c ∈ name.head?, c.isAlpha = true) ∧ (∀ c ∈ name, inScheme c = true) ∧
      scheme = String.ofList (name.map Char.toLower) := by
  constructor
  · intro h
    cases cs with
    | nil => cases h
    | cons c rest =>
      cases halpha : c.isAlpha with
      | false =>
        rw [splitScheme?, halpha] at h
        cases h
      | true =>
        obtain ⟨hrest, hscheme⟩ := (splitScheme?_cons_eq_some_iff halpha).mp h
        have hc : inScheme c = true := by
          change (c.isAlpha || c.isDigit || _) = true
          rw [halpha]
          rfl
        refine ⟨(c :: rest).takeWhile inScheme, ?_, ⟨c, ?_, halpha⟩,
          fun _ => List.mem_takeWhile_imp, hscheme.symm⟩
        · rw [← hrest, List.takeWhile_append_dropWhile]
        · rw [List.takeWhile_cons_of_pos hc]
          rfl
  · rintro ⟨name, rfl, ⟨c, hc, halpha⟩, hname, rfl⟩
    obtain ⟨rest, rfl⟩ : ∃ rest, name = c :: rest := List.head?_eq_some_iff.mp hc
    have hcolon : ¬ inScheme ':' = true := by decide
    rw [List.cons_append, splitScheme?_cons_eq_some_iff halpha, ← List.cons_append,
      List.takeWhile_append_of_pos hname, List.dropWhile_append_of_pos hname,
      List.takeWhile_cons_of_neg hcolon, List.dropWhile_cons_of_neg hcolon, List.append_nil]
    exact ⟨rfl, rfl⟩

/-- A text with a scheme is read as its kind of scheme says. -/
theorem parse_eq {s scheme : String} {r : List Char}
    (h : splitScheme? (clean s) = some (scheme, r)) :
    parse s = match SchemeKind.of scheme with
      | .file => parseFile none r
      | .special => afterSlashes scheme .special (r.dropWhile SchemeKind.special.separates)
      | .foreign => parseForeign scheme r := by
  rw [parse, parseWith, h, ← Text.drop_length_takeWhile]
  dsimp only
  cases SchemeKind.of scheme <;> rfl

/-- What is read after the slashes has the scheme before them. -/
theorem scheme_of_afterSlashes {scheme : String} {k : SchemeKind} {cs : List Char} {u : Url}
    (h : afterSlashes scheme k cs = .ok u) : u.scheme = scheme := by
  obtain ⟨authority, -, hauthority⟩ := exists_of_bind_eq_ok h
  obtain rfl := Except.ok.inj hauthority
  rfl

/-- What is read as a foreign URL has the scheme before it. -/
theorem scheme_of_parseForeign {scheme : String} {cs : List Char} {u : Url}
    (h : parseForeign scheme cs = .ok u) : u.scheme = scheme := by
  unfold parseForeign at h
  split at h
  · exact scheme_of_afterSlashes h
  · obtain rfl := Except.ok.inj h
    rfl

/-- A URL of a file is read from what starts with its scheme. -/
theorem scheme_of_parseFile {cs : List Char} {u : Url} (h : parseFile none cs = .ok u) :
    u.scheme = "file" := by
  have hok {v : Url} (hv : v.scheme = "file") (heq : (.ok v : Except Fault Url) = .ok u) :
      u.scheme = "file" := Except.ok.inj heq ▸ hv
  unfold parseFile at h
  dsimp only at h
  split at h
  · split at h
    · obtain ⟨⟨host, rest⟩, -, hu⟩ := exists_of_bind_eq_ok h
      dsimp only at hu
      split at hu <;> exact hok rfl hu
    · split at h <;> exact hok rfl h
  · split at h <;> exact hok rfl h
  · exact hok rfl h

/-- A text is read as a URL of the scheme that it starts with. -/
theorem splitScheme?_of_parse {s : String} {u : Url} (h : parse s = .ok u) :
    ∃ r, splitScheme? (clean s) = some (u.scheme, r) := by
  rcases hsplit : splitScheme? (clean s) with _ | ⟨scheme, r⟩
  · rw [parse, parseWith, hsplit] at h
    cases h
  · refine ⟨r, ?_⟩
    suffices hscheme : u.scheme = scheme by rw [hscheme]
    rw [parse_eq hsplit] at h
    split at h
    · rename_i hkind
      have hfile : scheme = "file" := by
        unfold SchemeKind.of at hkind
        split at hkind
        · simpa using ‹(scheme == "file") = true›
        · split at hkind <;> cases hkind
      rw [scheme_of_parseFile h, hfile]
    · exact scheme_of_afterSlashes h
    · exact scheme_of_parseForeign h

/-- What starts with a visible scheme is read as a URL of that scheme. -/
theorem scheme_of_parse_append {front rest scheme : String} {r : List Char} {u : Url}
    (hvisible : ∀ c ∈ front.toList, 0x20 < c.val.toNat)
    (hfront : splitScheme? front.toList = some (scheme, r)) (h : parse (front ++ rest) = .ok u) :
    u.scheme = scheme := by
  obtain ⟨name, heq, halpha, hname, hscheme⟩ := splitScheme?_eq_some_iff.mp hfront
  have hclean := clean_append (show front.toList ≠ [] by simp [heq]) hvisible [] rest.toList
  rw [List.nil_append, String.ofList_append, String.ofList_toList, String.ofList_toList] at hclean
  have hwhole : splitScheme? (clean (front ++ rest)) =
      some (scheme, r ++ cleanBack rest.toList) := by
    rw [hclean]
    refine splitScheme?_eq_some_iff.mpr ⟨name, ?_, halpha, hname, hscheme⟩
    rw [heq, List.append_assoc]
    rfl
  obtain ⟨_, hsplit⟩ := splitScheme?_of_parse h
  rw [hwhole] at hsplit
  exact (congrArg Prod.fst (Option.some.inj hsplit)).symm

/-- The URL of a built-in module is that of no file. -/
theorem scheme_of_parse_node {name : String} {u : Url}
    (h : parse (Specifier.nodePrefix ++ name) = .ok u) : u.scheme = "node" :=
  scheme_of_parse_append (visible_of_all (by decide)) rfl h

/-- Only what is not visible can stand before a scheme. -/
theorem isAlpha_of_parse {s : String} {u : Url} (h : parse s = .ok u) {c : Char}
    (hc : s.toList.head? = some c) (hvisible : 0x20 < c.val.toNat) : c.isAlpha = true := by
  obtain ⟨rest, hrest⟩ := List.head?_eq_some_iff.mp hc
  obtain ⟨r, hr⟩ := splitScheme?_of_parse h
  have hclean : clean s = c :: cleanBack rest := by
    have hadded := clean_append (show [c] ≠ [] by simp) (by simpa using hvisible) [] rest
    rw [← String.ofList_toList (s := s), hrest]
    exact hadded
  obtain ⟨name, heq, ⟨d, hd, halpha⟩, -⟩ := splitScheme?_eq_some_iff.mp hr
  obtain ⟨more, rfl⟩ := List.head?_eq_some_iff.mp hd
  rw [hclean] at heq
  obtain ⟨rfl, -⟩ := List.cons.inj heq
  exact halpha

end ScriptModules.Url

import Mathlib.Data.List.Infix
import Mathlib.Data.List.TakeWhile
import ScriptModules.Specifier
import ScriptModules.Url.File

/-!
# Forms of specifiers

A search appends extensions to a specifier, or puts the extension of a source in the place of a
compiled one. A specifier that has more of a path than its dots is still a path after that, and a
source has no further sources. Only `.` and `..` can lose their paths.
-/

namespace ScriptModules

namespace Text

/-- A text starts with another if its characters do. -/
theorem startsWith_iff {front s : String} :
    startsWith front s = true ↔ front.toList <+: s.toList :=
  List.isPrefixOf_iff_prefix

/-- A text ends with another if its characters do. -/
theorem endsWith_iff {back s : String} : endsWith back s = true ↔ back.toList <:+ s.toList :=
  List.isSuffixOf_iff_suffix

/-- What a text goes on with does not change how it starts. -/
theorem startsWith_append {front s : String} (h : startsWith front s = true) (t : String) :
    startsWith front (s ++ t) = true := by
  rw [startsWith_iff] at h ⊢
  rw [String.toList_append]
  exact h.trans (List.prefix_append _ _)

/-- A text ends as what it goes on with does, if that is long enough. -/
theorem endsWith_append {back t : String} (h : back.length ≤ t.length) (s : String) :
    endsWith back (s ++ t) = endsWith back t := by
  rw [Bool.eq_iff_iff, endsWith_iff, endsWith_iff, String.toList_append]
  refine ⟨fun hb => ?_, fun hb => hb.trans (List.suffix_append _ _)⟩
  exact List.suffix_of_suffix_length_le hb (List.suffix_append _ _)
    (by simpa [String.length_toList] using h)

/-- What starts with a text is the text and more. -/
theorem exists_append_of_prefix {front s : String} (h : front.toList <+: s.toList) :
    ∃ rest, s = front ++ rest := by
  obtain ⟨rest, hrest⟩ := h
  refine ⟨String.ofList rest, ?_⟩
  rw [← String.toList_inj, String.toList_append, String.toList_ofList, hrest]

/-- The rest after a front is an end of the whole. -/
theorem suffix_of_dropPrefix? {front s rest : String} (h : dropPrefix? front s = some rest) :
    rest.toList <:+ s.toList := by
  unfold dropPrefix? at h
  split at h
  · obtain rfl := Option.some.inj h
    rw [String.toList_ofList]
    exact List.drop_suffix _ _
  · exact absurd h (by simp)

end Text

namespace Specifier

/-- What every path starts with, but for the directory of the importing module and the one above
it. -/
def pathFronts : List String := ["file://", "./", "../", "/"]

/-- A path that says more than its dots. -/
def hasPathFront (s : String) : Bool := pathFronts.any (Text.startsWith · s)

/-- A specifier says more than its dots if it starts like a path that does. -/
theorem hasPathFront_iff {s : String} :
    hasPathFront s = true ↔ ∃ front ∈ pathFronts, front.toList <+: s.toList := by
  simp only [hasPathFront, List.any_eq_true, Text.startsWith_iff]

/-- The paths without a front are the two of dots alone. -/
theorem isPath_eq (s : String) : isPath s = (hasPathFront s || s == "." || s == "..") := rfl

/-- What says more than its dots is a path. -/
theorem isPath_of_hasPathFront {s : String} (h : hasPathFront s = true) : isPath s = true := by
  simp [isPath_eq, h]

/-- Of all paths only one dot and two say no more than their dots. -/
theorem hasPathFront_of_isPath {s : String} (h : isPath s = true) (hd : s ≠ ".")
    (hu : s ≠ "..") : hasPathFront s = true := by
  simpa [isPath_eq, hd, hu] using h

/-- Appending keeps the front of a path. -/
theorem hasPathFront_append {s : String} (h : hasPathFront s = true) (t : String) :
    hasPathFront (s ++ t) = true := by
  obtain ⟨front, hf, hs⟩ := List.any_eq_true.mp h
  exact List.any_eq_true.mpr ⟨front, hf, Text.startsWith_append hs t⟩

/-- The URL of a file has the front of a path. -/
theorem hasPathFront_of_ofPath? {p : Path} {u : Url} (h : Url.ofPath? p = some u) :
    hasPathFront u.text = true := by
  unfold Url.ofPath? at h
  split at h
  · obtain rfl := Option.some.inj h
    refine hasPathFront_iff.mpr ⟨"file://", by simp [pathFronts], ?_⟩
    simp [Url.text, Url.Authority.text, List.cons_prefix_cons]
  · exact absurd h (by simp)

/-- What ends in a slash asks for a directory. -/
theorem isDirectory_iff {s : String} : isDirectory s = true ↔ s.toList.getLast? = some '/' := by
  rw [isDirectory, Text.endsWith_iff, List.getLast?_eq_some_iff]
  exact ⟨fun ⟨l, h⟩ => ⟨l, h.symm⟩, fun ⟨l, h⟩ => ⟨l, h.symm⟩⟩

/-- A character that does not end the path of a specifier. -/
def inPath (c : Char) : Bool := c != '?' && c != '#'

/-- How a source takes the place of what is compiled from it: between the stem and what follows
the path, one extension stands for the other. -/
structure SourceForm (s form : String) (stem : List Char) (compiled source : String)
    (rest : List Char) : Prop where
  /-- The extensions belong together. -/
  listed : ∃ sources, (compiled, sources) ∈ sourceExtensions ∧ source ∈ sources
  specifier_eq : s.toList = stem ++ (compiled.toList ++ rest)
  form_eq : form.toList = stem ++ (source.toList ++ rest)
  /-- The path goes at least to the extension. -/
  stem_plain : ∀ c ∈ stem, inPath c = true
  /-- Something has the extension. -/
  stem_named : stem ≠ [] ∧ stem.getLast? ≠ some '/'
  /-- The path does not go further than the extension. -/
  rest_marked : ∀ c ∈ rest.head?, inPath c = false

/-- The alternates by the path of a specifier and what follows it. -/
theorem sourceAlternates_eq (s : String) :
    sourceAlternates s =
      match sourceExtensions.find? fun x =>
        x.1.toList.isSuffixOf (s.toList.takeWhile inPath) with
      | none => []
      | some (compiled, sources) =>
        let stem := (s.toList.takeWhile inPath).take
          ((s.toList.takeWhile inPath).length - compiled.length)
        if stem.isEmpty || stem.getLast? == some '/' then []
        else sources.map fun source =>
          String.ofList (stem ++ source.toList ++ s.toList.dropWhile inPath) := by
  unfold sourceAlternates
  rw [List.span_eq_takeWhile_dropWhile]
  rfl

/-- Every alternate is a source form. -/
theorem exists_sourceForm {s form : String} (h : form ∈ sourceAlternates s) :
    ∃ stem compiled source rest, SourceForm s form stem compiled source rest := by
  rw [sourceAlternates_eq] at h
  cases hfind : sourceExtensions.find? fun x =>
      x.1.toList.isSuffixOf (s.toList.takeWhile inPath) with
  | none => simp [hfind] at h
  | some pair =>
    obtain ⟨compiled, sources⟩ := pair
    have hcompiled : compiled.toList.isSuffixOf (s.toList.takeWhile inPath) = true := by
      simpa using List.find?_some hfind
    obtain ⟨stem, hstem⟩ := List.isSuffixOf_iff_suffix.mp hcompiled
    have htake : (s.toList.takeWhile inPath).take
        ((s.toList.takeWhile inPath).length - compiled.length) = stem := by
      rw [← hstem, ← String.length_toList]
      simp
    simp only [hfind, htake] at h
    split at h
    · exact absurd h (by simp)
    · rename_i hnamed
      obtain ⟨source, hsource, rfl⟩ := List.mem_map.mp h
      refine ⟨stem, compiled, source, s.toList.dropWhile inPath,
        ⟨⟨sources, List.mem_of_find?_eq_some hfind, hsource⟩, ?_, ?_, ?_, ?_, ?_⟩⟩
      · rw [← List.append_assoc, hstem, List.takeWhile_append_dropWhile]
      · rw [String.toList_ofList, List.append_assoc]
      · intro c hc
        refine List.mem_takeWhile_imp (l := s.toList) ?_
        rw [← hstem]
        exact List.mem_append_left _ hc
      · simpa [not_or] using hnamed
      · intro c hc
        have hmark := List.head?_dropWhile_not inPath s.toList
        rwa [Option.mem_def.mp hc] at hmark

/-- Only a specifier whose path ends in a compiled extension has alternates. -/
theorem sourceAlternates_eq_nil {s : String}
    (h : ∀ x ∈ sourceExtensions, ¬ x.1.toList <:+ s.toList.takeWhile inPath) :
    sourceAlternates s = [] := by
  rw [sourceAlternates_eq, List.find?_eq_none.mpr]
  intro x hx
  simpa [List.isSuffixOf_iff_suffix] using h x hx

/-- What has a compiled extension appended has the sources with the extensions in its place. -/
theorem sourceAlternates_append {s : String} (hplain : ∀ c ∈ s.toList, inPath c = true)
    (hempty : s.toList ≠ []) (hslash : s.toList.getLast? ≠ some '/') {compiled : String}
    {sources : List String} (h : (compiled, sources) ∈ sourceExtensions) :
    sourceAlternates (s ++ compiled) = sources.map (s ++ ·) := by
  have hcompiled : ∀ c ∈ compiled.toList, inPath c = true := by
    revert h
    simp only [sourceExtensions, List.mem_cons, List.not_mem_nil, or_false, Prod.mk.injEq]
    rintro (⟨rfl, -⟩ | ⟨rfl, -⟩ | ⟨rfl, -⟩ | ⟨rfl, -⟩) <;> simp [inPath]
  have hall : ∀ c ∈ (s ++ compiled).toList, inPath c = true := by
    intro c hc
    rw [String.toList_append, List.mem_append] at hc
    exact hc.elim (hplain c) (hcompiled c)
  -- No other compiled extension is an end of this one.
  have hfind : (sourceExtensions.find? fun x => x.1.toList.isSuffixOf (s ++ compiled).toList) =
      some (compiled, sources) := by
    revert h
    simp only [sourceExtensions, List.mem_cons, List.not_mem_nil, or_false, Prod.mk.injEq,
      String.toList_append, List.isSuffixOf, List.reverse_append, List.find?_cons]
    rintro (⟨rfl, rfl⟩ | ⟨rfl, rfl⟩ | ⟨rfl, rfl⟩ | ⟨rfl, rfl⟩) <;> simp [List.isPrefixOf]
  have htake : (s ++ compiled).toList.take ((s ++ compiled).toList.length - compiled.length) =
      s.toList := by
    rw [String.toList_append, ← String.length_toList]
    simp
  rw [sourceAlternates_eq, List.takeWhile_eq_self_iff.mpr hall, List.dropWhile_eq_nil_iff.mpr hall,
    hfind]
  dsimp only
  rw [htake, if_neg (by simpa using ⟨by simpa using hempty, hslash⟩)]
  refine List.map_congr_left fun source _ => ?_
  rw [List.append_nil, String.ofList_append, String.ofList_toList, String.ofList_toList]

/-- What has one of the usual extensions appended has the sources that belong to the extension. -/
theorem sourceAlternates_append_extension {s : String} (hplain : ∀ c ∈ s.toList, inPath c = true)
    (hempty : s.toList ≠ []) (hslash : s.toList.getLast? ≠ some '/') {e : String}
    (he : e ∈ [".js", ".json", ".ts", ".tsx", ".jsx"]) :
    sourceAlternates (s ++ e) = ((sourceExtensions.lookup e).getD []).map (s ++ ·) := by
  have hnone {e : String} (hin : ∀ d ∈ e.toList, inPath d = true)
      (hno : ∀ y ∈ sourceExtensions, ¬ y.1.toList <:+ s.toList ++ e.toList) :
      sourceAlternates (s ++ e) = [] := by
    refine sourceAlternates_eq_nil fun y hy => ?_
    rw [String.toList_append, List.takeWhile_append_of_pos hplain,
      List.takeWhile_eq_self_iff.mpr hin]
    exact hno y hy
  simp only [List.mem_cons, List.not_mem_nil, or_false] at he
  rcases he with rfl | rfl | rfl | rfl | rfl
  case inl | inr.inr.inr.inr =>
    exact sourceAlternates_append hplain hempty hslash (by decide)
  all_goals
    refine hnone (by simp [inPath]) fun y hy => ?_
    rw [← List.isSuffixOf_iff_suffix, List.isSuffixOf, List.reverse_append]
    simp only [sourceExtensions, List.mem_cons, List.not_mem_nil, or_false] at hy
    rcases hy with rfl | rfl | rfl | rfl <;> simp [List.isPrefixOf]

/-- The start of a text either ends before a character or takes it in. -/
private theorem prefix_or_of_prefix_append_cons {p a l : List Char} {c : Char}
    (h : p <+: a ++ c :: l) : p <+: a ∨ ∃ t, p = a ++ c :: t ∧ t <+: l := by
  rcases List.prefix_or_prefix_of_prefix h (List.prefix_append _ _) with hp | ⟨t, rfl⟩
  · exact Or.inl hp
  · rw [List.prefix_append_right_inj] at h
    cases t with
    | nil => exact Or.inl (by simp)
    | cons d t =>
      obtain ⟨rfl, htl⟩ := List.cons_prefix_cons.mp h
      exact Or.inr ⟨t, rfl, htl⟩

namespace SourceForm

variable {s form : String} {stem rest : List Char} {compiled source : String}

/-- The extensions that belong together. -/
theorem extensions_eq (h : SourceForm s form stem compiled source rest) :
    compiled = ".js" ∧ source = ".ts" ∨ compiled = ".js" ∧ source = ".tsx" ∨
      compiled = ".jsx" ∧ source = ".tsx" ∨ compiled = ".mjs" ∧ source = ".mts" ∨
      compiled = ".cjs" ∧ source = ".cts" := by
  obtain ⟨sources, hc, hs⟩ := h.listed
  simp only [sourceExtensions, List.mem_cons, List.not_mem_nil, or_false, Prod.mk.injEq] at hc
  rcases hc with ⟨rfl, rfl⟩ | ⟨rfl, rfl⟩ | ⟨rfl, rfl⟩ | ⟨rfl, rfl⟩ <;> simpa using hs

/-- A compiled extension goes on with a letter after its dot. -/
theorem compiled_eq (h : SourceForm s form stem compiled source rest) :
    ∃ a l, a ≠ '/' ∧ compiled.toList = '.' :: a :: l := by
  rcases h.extensions_eq with ⟨rfl, -⟩ | ⟨rfl, -⟩ | ⟨rfl, -⟩ | ⟨rfl, -⟩ | ⟨rfl, -⟩ <;> simp

/-- The extension of a source starts with a dot and lies in the path. -/
theorem source_eq (h : SourceForm s form stem compiled source rest) :
    (∃ l, source.toList = '.' :: l) ∧ ∀ c ∈ source.toList, inPath c = true := by
  rcases h.extensions_eq with ⟨-, rfl⟩ | ⟨-, rfl⟩ | ⟨-, rfl⟩ | ⟨-, rfl⟩ | ⟨-, rfl⟩ <;>
    simp [inPath]

/-- A source has an extension that nothing is compiled to. -/
theorem source_not_compiled (h : SourceForm s form stem compiled source rest) (before : List Char)
    {x : String × List String} (hx : x ∈ sourceExtensions) :
    ¬ x.1.toList <:+ before ++ source.toList := by
  rw [← List.isSuffixOf_iff_suffix, List.isSuffixOf, List.reverse_append]
  simp only [sourceExtensions, List.mem_cons, List.not_mem_nil, or_false] at hx
  rcases h.extensions_eq with ⟨-, rfl⟩ | ⟨-, rfl⟩ | ⟨-, rfl⟩ | ⟨-, rfl⟩ | ⟨-, rfl⟩ <;>
    rcases hx with rfl | rfl | rfl | rfl <;> simp [List.isPrefixOf]

/-- The front of a path lies before the extension: otherwise it would hold the dot of the
extension, with no slash or dot after it. -/
theorem front_prefix_stem (h : SourceForm s form stem compiled source rest) {front : String}
    (hf : front ∈ pathFronts) (hs : front.toList <+: s.toList) : front.toList <+: stem := by
  obtain ⟨a, l, ha, hc⟩ := h.compiled_eq
  rw [h.specifier_eq, hc] at hs
  rcases prefix_or_of_prefix_append_cons hs with hp | ⟨t, ht, htl⟩
  · exact hp
  · have hne := h.stem_named.1
    have hdot : '.' ∈ front.toList := by simp [ht]
    exfalso
    simp only [pathFronts, List.mem_cons, List.not_mem_nil, or_false] at hf
    rcases hf with rfl | rfl | rfl | rfl
    · simp at hdot
    · rcases stem with _ | ⟨_, _ | ⟨_, stem⟩⟩ <;> simp at hne ht
    · rcases stem with _ | ⟨_, _ | ⟨_, _ | ⟨_, stem⟩⟩⟩ <;> simp at hne ht
      obtain ⟨-, rfl⟩ := ht
      simp [List.cons_prefix_cons, Ne.symm ha] at htl
    · simp at hdot

/-- A source of a path is a path. -/
theorem hasPathFront (h : SourceForm s form stem compiled source rest)
    (hs : Specifier.hasPathFront s = true) : Specifier.hasPathFront form = true := by
  obtain ⟨front, hf, hp⟩ := hasPathFront_iff.mp hs
  refine hasPathFront_iff.mpr ⟨front, hf, ?_⟩
  rw [h.form_eq]
  exact (h.front_prefix_stem hf hp).trans (List.prefix_append _ _)

/-- A source is asked for as a directory just when what is compiled from it is. -/
theorem isDirectory_eq (h : SourceForm s form stem compiled source rest) :
    isDirectory form = isDirectory s := by
  rw [Bool.eq_iff_iff, isDirectory_iff, isDirectory_iff, h.form_eq, h.specifier_eq]
  rcases h.extensions_eq with ⟨rfl, rfl⟩ | ⟨rfl, rfl⟩ | ⟨rfl, rfl⟩ | ⟨rfl, rfl⟩ | ⟨rfl, rfl⟩ <;>
    cases hr : rest.getLast? <;> simp [List.getLast?_cons, hr]

/-- What ends in the extension of a source has no further sources. -/
theorem sourceAlternates_of_toList_eq (h : SourceForm s form stem compiled source rest)
    {t : String} {before : List Char} (hb : ∀ c ∈ before, inPath c = true)
    (ht : t.toList = before ++ (source.toList ++ rest)) : sourceAlternates t = [] := by
  have hrest : rest.takeWhile inPath = [] := by
    cases rest with
    | nil => rfl
    | cons c l => simp [h.rest_marked c (by simp)]
  have hpath : t.toList.takeWhile inPath = before ++ source.toList := by
    rw [ht, List.takeWhile_append_of_pos hb, List.takeWhile_append_of_pos h.source_eq.2, hrest,
      List.append_nil]
  apply sourceAlternates_eq_nil
  intro x hx
  rw [hpath]
  exact h.source_not_compiled before hx

end SourceForm

/-- Leaving out the prefix leaves an end of the specifier. -/
theorem withoutNodePrefix_suffix (c : Host.Capabilities) (s : String) :
    (withoutNodePrefix c s).toList <:+ s.toList := by
  unfold withoutNodePrefix
  split
  · exact List.suffix_refl _
  · cases h : Text.dropPrefix? nodePrefix s with
    | none => exact List.suffix_refl _
    | some rest => exact Text.suffix_of_dropPrefix? h

/-- What asks for a directory without the prefix asks for it with the prefix. -/
theorem isDirectory_of_withoutNodePrefix {c : Host.Capabilities} {s : String}
    (h : isDirectory (withoutNodePrefix c s) = true) : isDirectory s = true := by
  rw [isDirectory, Text.endsWith_iff] at h ⊢
  exact h.trans (withoutNodePrefix_suffix c s)

/-- A path does not start with the prefix of built-in modules. -/
theorem dropPrefix?_of_hasPathFront {s : String} (h : hasPathFront s = true) :
    Text.dropPrefix? nodePrefix s = none := by
  have hno : ¬ nodePrefix.toList <+: s.toList := by
    obtain ⟨front, hf, hs⟩ := hasPathFront_iff.mp h
    intro hn
    simp only [pathFronts, List.mem_cons, List.not_mem_nil, or_false] at hf
    rcases List.prefix_or_prefix_of_prefix hs hn with hp | hp <;>
      rcases hf with rfl | rfl | rfl | rfl <;> simp [nodePrefix, List.cons_prefix_cons] at hp
  unfold Text.dropPrefix?
  simp [List.isPrefixOf_iff_prefix, hno]

/-- A path has no prefix that could be left out. -/
theorem withoutNodePrefix_of_hasPathFront {c : Host.Capabilities} {s : String}
    (h : hasPathFront s = true) : withoutNodePrefix c s = s := by
  rw [withoutNodePrefix, dropPrefix?_of_hasPathFront h]
  simp

/-- A source has no further sources, also where the prefix of built-in modules is left out. -/
theorem sourceAlternates_of_mem {c : Host.Capabilities} {s form : String}
    (h : form ∈ sourceAlternates s) : sourceAlternates (withoutNodePrefix c form) = [] := by
  obtain ⟨stem, compiled, source, rest, hform⟩ := exists_sourceForm h
  unfold withoutNodePrefix Text.dropPrefix?
  split
  · exact hform.sourceAlternates_of_toList_eq hform.stem_plain hform.form_eq
  · split
    · rename_i hn
      obtain ⟨l, hl⟩ := hform.source_eq.1
      rw [List.isPrefixOf_iff_prefix, hform.form_eq, hl] at hn
      have hstem : nodePrefix.toList <+: stem := by
        rcases prefix_or_of_prefix_append_cons hn with hp | ⟨t, ht, -⟩
        · exact hp
        · have hdot : '.' ∈ nodePrefix.toList := by simp [ht]
          simp [nodePrefix] at hdot
      apply hform.sourceAlternates_of_toList_eq
        (fun c hc => hform.stem_plain c (List.mem_of_mem_drop hc))
      rw [Option.getD_some, String.toList_ofList, hform.form_eq,
        List.drop_append_of_le_length (by simpa [String.length_toList] using hstem.length_le)]
    · exact hform.sourceAlternates_of_toList_eq hform.stem_plain hform.form_eq

end Specifier

end ScriptModules

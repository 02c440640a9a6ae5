import ScriptModules.Proofs.Url.FilePath
import ScriptModules.Proofs.Url.Foreign

/-!
# The segments of URLs

No segment of a URL that is read, alone or against a base, holds the mark that ends it, a query or a
fragment, and none stands for the segment around it.
-/

namespace ScriptModules.Url

variable {k : SchemeKind} {names : List String} {base u : Url} {cs : List Char}

/-- A segment as it stands in a URL. -/
structure IsSegment (name : String) : Prop where
  unmarked : ∀ c ∈ name.toList, c ∉ ['/', '?', '#']
  real : name ≠ "."

/-- A segment may be empty. -/
theorem isSegment_empty : IsSegment "" := ⟨by simp, by decide⟩

/-- A URL whose segments are as they stand in one. -/
def Formed (u : Url) : Prop := ∀ name ∈ u.segmentsOf, IsSegment name

/-- Only a dot is written as a dot. -/
theorem eq_dot_of_encode {isEncoded : Char → Bool} (h : encode isEncoded cs = ['.']) :
    cs = ['.'] := by
  have hmem : '.' ∈ encode isEncoded cs := by simp [h]
  have hdot := ((mem_encode_iff (by decide)).mp hmem).1
  have hlength := length_le_encode isEncoded cs
  rw [h, List.length_singleton] at hlength
  obtain ⟨c, rest, rfl⟩ := List.exists_cons_of_ne_nil (List.ne_nil_of_mem hdot)
  obtain rfl : rest = [] := List.length_eq_zero_iff.mp (by simpa using hlength)
  rw [List.mem_singleton.mp hdot]

/-- What stands between two slashes, if it is no step, is written as a segment. -/
theorem isSegment_encode (hslash : '/' ∉ cs) (hhere : isHere cs = false) :
    IsSegment (String.ofList (encode isEncodedInPath cs)) where
  unmarked := by
    intro c hc hmark
    rw [String.toList_ofList] at hc
    simp only [List.mem_cons, List.not_mem_nil, or_false] at hmark
    rcases hmark with rfl | rfl | rfl
    · exact hslash ((mem_encode_iff (by decide)).mp hc).1
    · exact absurd ((mem_encode_iff (by decide)).mp hc).2 (by decide)
    · exact absurd ((mem_encode_iff (by decide)).mp hc).2 (by decide)
  real := by
    intro hdot
    have hencoded : encode isEncodedInPath cs = ['.'] := by
      simpa using congrArg String.toList hdot
    rw [eq_dot_of_encode hencoded] at hhere
    exact absurd hhere (by decide)

/-- A drive is a segment once its mark is a colon. -/
theorem isSegment_drive (hdrive : isDriveWith [':', '|'] cs = true) :
    IsSegment (String.ofList (cs.take 1 ++ [':'])) := by
  unfold isDriveWith at hdrive
  split at hdrive
  · rename_i a b
    have ha : a.isAlpha = true := (Bool.and_eq_true_iff.mp hdrive).1
    refine ⟨fun c hc hmark => ?_, fun hdot => ?_⟩
    · rw [String.toList_ofList] at hc
      simp only [List.take_succ_cons, List.take_zero, List.mem_cons, List.cons_append,
        List.nil_append, List.not_mem_nil, or_false] at hc hmark
      rcases hc with rfl | rfl
      · rcases hmark with rfl | rfl | rfl <;> exact absurd ha (by decide)
      · rcases hmark with hmark | hmark | hmark <;> exact absurd hmark (by decide)
    · simpa using congrArg String.toList hdot
  · cases hdrive

/-- All segments of a path are as they stand in a URL. -/
def AllSegments (names : List String) : Prop := ∀ name ∈ names, IsSegment name

namespace AllSegments

theorem nil : AllSegments [] := fun _ h => absurd h List.not_mem_nil

theorem of_subset {names' : List String} (h : AllSegments names) (hsub : names' ⊆ names) :
    AllSegments names' := fun name hname => h name (hsub hname)

/-- One more segment may come last. -/
theorem concat {name : String} (h : AllSegments names) (hname : IsSegment name) :
    AllSegments (names ++ [name]) := by
  intro other hother
  rcases List.mem_append.mp hother with hother | hother
  · exact h other hother
  · rwa [List.mem_singleton.mp hother]

/-- To step up leaves segments as they stand in a URL. -/
theorem stepUp (h : AllSegments names) : AllSegments (stepUp names) := by
  unfold Url.stepUp
  split
  · exact h
  · exact h.of_subset (List.dropLast_subset _)

/-- A piece without slashes is added as a segment. -/
theorem addSegment (h : AllSegments names) (more : Bool) {segment : List Char}
    (hslash : '/' ∉ segment) : AllSegments (addSegment k more names segment) := by
  have hlast {names : List String} (h : AllSegments names) :
      AllSegments (if more = true then names else names ++ [""]) := by
    split
    · exact h
    · exact h.concat isSegment_empty
  unfold Url.addSegment
  split
  · exact hlast h.stepUp
  · split
    · exact hlast h
    · split
      · exact h.concat (isSegment_drive (by simp_all))
      · exact h.concat (isSegment_encode hslash (by simp_all))

/-- All pieces of a path are added as segments. -/
theorem addSegments (h : AllSegments names) {segment : List Char} (hslash : '/' ∉ segment) :
    AllSegments (addSegments k names segment cs) := by
  have hreverse {segment : List Char} (hslash : '/' ∉ segment) : '/' ∉ segment.reverse := by
    simpa using hslash
  induction cs generalizing names segment with
  | nil => exact h.addSegment false (hreverse hslash)
  | cons c rest ih =>
    rw [Url.addSegments]
    split
    · exact ih (h.addSegment true (hreverse hslash)) (by simp)
    · rename_i hseparates
      refine ih h fun hmem => ?_
      rcases List.mem_cons.mp hmem with rfl | hmem
      · exact hseparates rfl
      · exact hslash hmem

/-- A path goes on in segments. -/
theorem extend (h : AllSegments names) : AllSegments (extend k names cs) := by
  have hadded : AllSegments (Url.addSegments k names [] cs) := h.addSegments (by simp)
  unfold Url.extend trimFront
  split
  · split
    · exact fun name hname => List.mem_singleton.mp hname ▸ isSegment_empty
    · exact hadded.of_subset (List.dropWhile_sublist _).subset
  · exact hadded

/-- To drop the last segment leaves the others as they are. -/
theorem dropSegment (h : AllSegments names) : AllSegments (dropSegment k names) := by
  unfold Url.dropSegment
  split
  · exact h
  · exact h.of_subset (List.dropLast_subset _)

end AllSegments

/-- What follows an authority is a formed URL. -/
theorem formed_finishAuthority (scheme : String) (k : SchemeKind) (a : Authority)
    (rest : List Char) : Formed (finishAuthority scheme k a rest) := by
  change AllSegments (finishAuthority scheme k a rest).segmentsOf
  unfold finishAuthority
  dsimp only [segmentsOf]
  split
  · split
    · exact .nil
    · exact AllSegments.nil.concat isSegment_empty
  · split
    · exact AllSegments.nil.extend
    · exact AllSegments.nil.extend

/-- What is read after the slashes is a formed URL. -/
theorem formed_afterSlashes {scheme : String} (h : afterSlashes scheme k cs = .ok u) :
    Formed u := by
  obtain ⟨⟨a, rest⟩, -, hu⟩ := exists_of_bind_eq_ok h
  obtain rfl := Except.ok.inj hu
  exact formed_finishAuthority _ _ _ _

/-- A formed URL goes on as one. -/
theorem Formed.continueBase (h : Formed base) : Formed (continueBase base k cs) := by
  unfold Url.continueBase
  split
  · exact h
  · exact h
  · exact h
  · exact AllSegments.extend (AllSegments.dropSegment h)

/-- What is read from the root is a formed URL. -/
theorem Formed.fromRoot (base : Url) (k : SchemeKind) (cs : List Char) :
    Formed (parseRelative.fromRoot base k cs) :=
  AllSegments.nil.extend

/-- What is read against a formed URL is one. -/
theorem Formed.parseRelative (h : Formed base) (hu : parseRelative base k cs = .ok u) :
    Formed u := by
  unfold Url.parseRelative at hu
  dsimp only at hu
  split at hu
  · split at hu
    · exact formed_afterSlashes hu
    · split at hu
      · exact Except.ok.inj hu ▸ Formed.fromRoot base k _
      · exact Except.ok.inj hu ▸ h.continueBase
  · split at hu
    · exact Except.ok.inj hu ▸ Formed.fromRoot base k _
    · exact Except.ok.inj hu ▸ h.continueBase
  · exact Except.ok.inj hu ▸ h.continueBase

/-- What a text is read against has segments as they stand in a URL. -/
def BaseFormed (base? : Option Url) : Prop := ∀ base ∈ base?, Formed base

/-- A base that is only used at times is formed. -/
theorem BaseFormed.filter {base? : Option Url} (h : BaseFormed base?) (p : Url → Bool) :
    BaseFormed (base?.filter p) :=
  fun base hbase => h base (Option.mem_filter_iff.mp hbase).1

/-- What is read from the root of a file is a formed URL. -/
theorem BaseFormed.rooted {base? : Option Url} (h : BaseFormed base?) :
    Formed (parseFile.rooted base? cs) := by
  refine AllSegments.extend ?_
  split
  · exact .nil
  · intro name hname
    obtain ⟨hname, -⟩ := Option.mem_filter_iff.mp (Option.mem_toList.mp hname)
    obtain ⟨base, hbase, hhead⟩ := Option.bind_eq_some_iff.mp hname
    exact h base hbase name (List.mem_of_mem_head? hhead)

/-- What is read against a file is a formed URL. -/
theorem BaseFormed.relative {base? : Option Url} (h : BaseFormed base?) :
    Formed (parseFile.relative base? cs) := by
  unfold parseFile.relative
  split
  · split
    · exact formed_finishAuthority _ _ _ _
    · exact (h _ rfl).continueBase
  · exact formed_finishAuthority _ _ _ _

/-- What is read as a file is a formed URL. -/
theorem BaseFormed.parseFile {base? : Option Url} (h : BaseFormed base?)
    (hu : parseFile base? cs = .ok u) : Formed u := by
  unfold Url.parseFile at hu
  dsimp only at hu
  split at hu
  · split at hu
    · obtain ⟨⟨host, rest⟩, -, rfl⟩ := exists_of_map_eq_ok hu
      have hfinish := formed_finishAuthority "file" .file { host := host } rest
      dsimp only
      split
      · exact hfinish
      · exact hfinish
    · split at hu
      · exact Except.ok.inj hu ▸ h.rooted
      · exact Except.ok.inj hu ▸ h.relative
  · split at hu
    · exact Except.ok.inj hu ▸ h.rooted
    · exact Except.ok.inj hu ▸ h.relative
  · exact Except.ok.inj hu ▸ h.relative

/-- What is read as a foreign URL is formed. -/
theorem formed_parseForeign {scheme : String} (h : parseForeign scheme cs = .ok u) : Formed u := by
  unfold parseForeign at h
  split at h
  · exact formed_afterSlashes h
  · obtain rfl := Except.ok.inj h
    dsimp only [Formed, segmentsOf]
    split
    · rename_i names hlocation
      split at hlocation
      · obtain rfl := UrlPath.segments.inj hlocation
        exact AllSegments.nil.extend
      · cases hlocation
    · exact AllSegments.nil

/-- What is read against a URL is formed as that is. -/
theorem BaseFormed.parseWith {base? : Option Url} (h : BaseFormed base?) {s : String}
    (hu : parseWith base? s = .ok u) : Formed u := by
  unfold Url.parseWith at hu
  dsimp only at hu
  split at hu
  · split at hu
    · exact (h.filter _).parseFile hu
    · split at hu
      · rename_i base hbase
        split at hu
        · exact (h.filter _ base hbase).parseRelative hu
        · exact formed_afterSlashes hu
      · exact formed_afterSlashes hu
    · exact formed_parseForeign hu
  · split at hu
    · cases hu
    · rename_i base
      have hbase := h base rfl
      split at hu
      · exact Except.ok.inj hu ▸ hbase
      · cases hu
      · split at hu
        · exact h.parseFile hu
        · exact hbase.parseRelative hu

/-- Every text that is read as a URL is read as a formed one. -/
theorem formed_of_parse {s : String} (h : parse s = .ok u) : Formed u := by
  have hnone : BaseFormed none := fun _ hbase => by cases hbase
  exact hnone.parseWith h

end ScriptModules.Url

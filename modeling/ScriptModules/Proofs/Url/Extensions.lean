import ScriptModules.Proofs.Url.Formed
import ScriptModules.Proofs.Url.Relative

/-!
# Extensions in URLs

A location is read as it is written, a file by what the location stands for. So the two may tell
different extensions: a URL can hide an extension behind percent signs, and a slash that it hides
can leave a name that is nothing but an extension.
-/

namespace ScriptModules

namespace Path

/-- The extension of a name stands after its last dot, and something stands before that. -/
theorem extensionOfName?_eq_some_iff {name e : String} (he : '.' ∉ e.toList) :
    extensionOfName? name = some e ↔
      ('.' :: e.toList) <:+ name.toList ∧ name ≠ "." ++ e := by
  have hname : name = String.ofList name.toList := String.ofList_toList.symm
  have hbare : name ≠ "." ++ e ↔ name.toList ≠ '.' :: e.toList := by
    rw [ne_eq, ← String.toList_inj, String.toList_append]
    rfl
  rw [hbare]
  constructor
  · intro h
    by_cases hdot : '.' ∈ name.toList
    · obtain ⟨stem, letters, hsplit, hletters⟩ := exists_last_mark hdot
      rw [hname, hsplit] at h
      by_cases hstem : stem = []
      · rw [hstem, List.nil_append, extensionOfName?_dot hletters] at h
        cases h
      · rw [extensionOfName?_append hstem hletters] at h
        rw [← Option.some.inj h, String.toList_ofList, hsplit]
        exact ⟨List.suffix_append _ _, by simpa using hstem⟩
    · rw [hname, extensionOfName?_of_notMem hdot] at h
      cases h
  · rintro ⟨⟨stem, hsplit⟩, hne⟩
    have hstem : stem ≠ [] := by
      rintro rfl
      exact hne hsplit.symm
    rw [hname, ← hsplit, extensionOfName?_append hstem he, String.ofList_toList]

/-- A path ends in its last name, whatever slashes follow that. -/
theorem fileName?_append_slashes {dir name : String} (h : IsName name) (n : Nat) :
    fileName? ⟨dir ++ "/" ++ name ++ slashes n⟩ = some name := by
  rw [fileName?, parts_append_slashes (by simp) n]
  exact fileName?_append h

end Path

namespace Url

open ScriptModules.Path (IsName rooted slashes)

/-- The letters and digits of an extension. -/
structure IsFileExtension (e : String) : Prop where
  ne_nil : e.toList ≠ []
  plain : ∀ c ∈ e.toList, c.isAlphanum = true

variable {u : Url} {names : List String} {p : Path} {e name : String}

/-- An extension has letters and digits alone. -/
theorem IsFileExtension.not_mem (h : IsFileExtension e) {c : Char} (hc : c.isAlphanum = false) :
    c ∉ e.toList := by
  intro hmem
  rw [h.plain c hmem] at hc
  cases hc

/-- An extension with its dot has nothing else but letters and digits. -/
theorem IsFileExtension.not_mem_dot (h : IsFileExtension e) {c : Char} (hdot : c ≠ '.')
    (hc : c.isAlphanum = false) : c ∉ '.' :: e.toList := by
  rw [List.mem_cons, not_or]
  exact ⟨hdot, h.not_mem hc⟩

/-- What ends like an extension is a name. -/
theorem IsFileExtension.isName (h : IsFileExtension e) (hname : ('.' :: e.toList) <:+ name.toList)
    (hslash : '/' ∉ name.toList) : IsName name := by
  have hne (other : String) (hother : ∀ c ∈ other.toList, c = '.') : name ≠ other := by
    rintro rfl
    obtain ⟨c, rest, hrest⟩ := List.exists_cons_of_ne_nil h.ne_nil
    have hc : c ∈ e.toList := by simp [hrest]
    have hdot := hother c (hname.subset (List.mem_cons_of_mem _ hc))
    exact h.not_mem (c := '.') (by decide) (hdot ▸ hc)
  exact ⟨hslash, by simp [Path.isIdle, hne "" (by simp), hne "." (by simp)], hne ".." (by simp)⟩

/-- The last segment, which is empty if a slash ends the path. -/
def lastSegment (u : Url) : String := u.segmentsOf.getLast?.getD ""

/-- The last segment that is not empty. -/
def lastName (u : Url) : String := (u.segmentsOf.reverse.find? (· != "")).getD ""

/-- The name that a URL ends in is spelled with an extension. -/
def Writes (u : Url) (e : String) : Prop := ('.' :: e.toList) <:+ u.lastName.toList

instance (u : Url) (e : String) : Decidable (Writes u e) :=
  inferInstanceAs (Decidable (('.' :: e.toList) <:+ u.lastName.toList))

/-- The segments of a URL are those of its location. -/
theorem segmentsOf_eq (h : u.location = .segments names) : u.segmentsOf = names := by
  rw [segmentsOf, h]

/-- Nothing but empty segments follows the last name. -/
theorem segmentsOf_eq_lastName (h : u.lastName ≠ "") :
    ∃ front n, u.segmentsOf = front ++ u.lastName :: List.replicate n "" := by
  unfold lastName at h ⊢
  cases hfind : u.segmentsOf.reverse.find? (· != "") with
  | none => simp [hfind] at h
  | some name =>
    obtain ⟨-, after, before, hreverse, hafter⟩ := List.find?_eq_some_iff_append.mp hfind
    have hempty : after.reverse = List.replicate after.length "" := by
      rw [List.eq_replicate_iff]
      exact ⟨List.length_reverse, fun name hname => by
        simpa using hafter name (List.mem_reverse.mp hname)⟩
    refine ⟨before.reverse, after.length, ?_⟩
    rw [← List.reverse_reverse u.segmentsOf, hreverse, List.reverse_append, List.reverse_cons,
      hempty, Option.getD_some, List.append_assoc, List.singleton_append]

/-- If there is no name, all segments are empty. -/
theorem eq_empty_of_lastName (h : u.lastName = "") : ∀ name ∈ u.segmentsOf, name = "" := by
  intro name hname
  unfold lastName at h
  cases hfind : u.segmentsOf.reverse.find? (· != "") with
  | none => simpa using List.find?_eq_none.mp hfind name (List.mem_reverse.mpr hname)
  | some last =>
    have hlast := List.find?_some hfind
    rw [hfind] at h
    simp_all

/-- The last name is the last segment if that is not empty. -/
theorem lastName_eq_lastSegment (h : u.lastSegment ≠ "") : u.lastName = u.lastSegment := by
  unfold lastSegment at h ⊢
  cases hlast : u.segmentsOf.getLast? with
  | none => simp [hlast] at h
  | some last =>
    obtain ⟨rest, hrest⟩ := List.head?_eq_some_iff.mp (List.head?_reverse.trans hlast)
    rw [hlast, Option.getD_some] at h
    rw [lastName, hrest, List.find?_cons_of_pos (by simpa using h)]

/-- There is no slash in the segments of a formed URL. -/
theorem Formed.slash_not_mem (h : Formed u) (hlocation : u.location = .segments names) :
    ∀ name ∈ names, '/' ∉ name.toList := by
  intro name hname hslash
  rw [← segmentsOf_eq hlocation] at hname
  exact (h name hname).unmarked '/' hslash (by simp)

/-- The path of a formed URL has no query and no fragment. -/
theorem Formed.bare_path_eq (h : Formed u) (hlocation : u.location = .segments names) :
    Location.bare u.path = u.path := by
  refine bare_path hlocation fun name hname c hc => ?_
  rw [← segmentsOf_eq hlocation] at hname
  have hunmarked := (h name hname).unmarked c hc
  simp only [List.mem_cons, List.not_mem_nil, or_false, not_or] at hunmarked
  exact hunmarked.2

/-- The path of a URL, taken as it is written, ends in the last name. -/
theorem Formed.fileName?_path (h : Formed u) (hlocation : u.location = .segments names) :
    Path.fileName? ⟨u.path⟩ =
      if u.lastName = "" ∨ u.lastName = ".." then none else some u.lastName := by
  have hidle (n : Nat) : (List.replicate n "").filterMap Path.partOf? = [] :=
    Path.filterMap_partOf?_of_idle fun piece hpiece => by
      rw [List.eq_of_mem_replicate hpiece]
      rfl
  have hsegments := segmentsOf_eq hlocation
  cases names with
  | nil =>
    have hname : u.lastName = "" := by simp [lastName, hsegments]
    rw [if_pos (Or.inl hname), Path.fileName?, Path.parts_of_text_eq_empty]
    · rfl
    · rw [path_eq_rooted hlocation]
      rfl
  | cons first rest =>
    have hparts := Path.parts_rooted (List.cons_ne_nil _ _) (h.slash_not_mem hlocation)
    rw [Path.fileName?, path_eq_rooted hlocation, hparts, ← hsegments]
    by_cases hname : u.lastName = ""
    · have hall := List.eq_replicate_of_mem (eq_empty_of_lastName hname)
      rw [if_pos (Or.inl hname), hall, hidle]
      rfl
    · obtain ⟨front, n, hsplit⟩ := segmentsOf_eq_lastName hname
      have hreal : u.lastName ≠ "." := (h u.lastName (by simp [hsplit])).real
      have hpart : Path.partOf? u.lastName =
          some (if u.lastName = ".." then .up else .name u.lastName) := by
        simp only [Path.partOf?, Path.isIdle, beq_iff_eq, hname, hreal, Bool.or_eq_true, or_self,
          if_false]
        split <;> rfl
      rw [hsplit, List.filterMap_append, List.filterMap_cons_some hpart, hidle, ← List.cons_append,
        List.getLast?_concat]
      by_cases hup : u.lastName = ".." <;> simp [hname, hup]

/-- A location tells the extension that its last name is spelled with, unless that is all of it. -/
theorem Formed.extension?_path_iff (h : Formed u) (hlocation : u.location = .segments names)
    (he : IsFileExtension e) :
    Location.extension? u.path = some e ↔ Writes u e ∧ u.lastName ≠ "." ++ e := by
  rw [Location.extension?, h.bare_path_eq hlocation, Path.extension?, h.fileName?_path hlocation]
  split
  · rename_i hnone
    refine iff_of_false (by simp) fun hwrites => ?_
    have hname := he.isName hwrites.1 (by rcases hnone with hnone | hnone <;> simp [hnone])
    rcases hnone with hnone | hnone
    · exact absurd hname.real (by rw [hnone]; decide)
    · exact hname.up hnone
  · exact Path.extensionOfName?_eq_some_iff (he.not_mem (by decide))

/-- The path of a URL ends like an extension if its last segment does. -/
theorem suffix_path_iff (hlocation : u.location = .segments names) (he : IsFileExtension e) :
    ('.' :: e.toList) <:+ u.path.toList ↔ Writes u e ∧ u.lastSegment ≠ "" := by
  have hsegments := segmentsOf_eq hlocation
  rw [path_eq_rooted hlocation]
  rcases List.eq_nil_or_concat names with rfl | ⟨front, last, rfl⟩
  · simp [lastSegment, hsegments, rooted]
  · have hlast : u.lastSegment = last := by simp [lastSegment, hsegments]
    have htext : (rooted (front ++ [last])).text.toList =
        (rooted front).text.toList ++ '/' :: last.toList := by
      simp [Path.text_rooted_concat]
    rw [List.concat_eq_append, htext,
      Text.suffix_append_cons_iff (he.not_mem_dot (by decide) (by decide)), hlast]
    by_cases hempty : last = ""
    · simp [hempty]
    · rw [Writes, lastName_eq_lastSegment (by rwa [hlast]), hlast]
      simp [hempty]

/-- A character that no two hexadecimal digits follow is read as it is. -/
theorem decode_cons_of_forall {c : Char} {cs : List Char}
    (h : ∀ x y r, c = '%' → cs = x :: y :: r → hexDigit? x = none ∨ hexDigit? y = none) :
    decode (c :: cs) = Text.utf8 [c] ++ decode cs := by
  by_cases hpercent : c = '%'
  · subst hpercent
    match cs with
    | [] => rfl
    | [x] => rfl
    | x :: y :: r =>
      rw [decode]
      split
      · rename_i a b hx hy
        rcases h x y r rfl rfl with hnone | hnone
        · rw [hnone] at hx
          cases hx
        · rw [hnone] at hy
          cases hy
      · rfl
  · exact decode_cons_of_ne hpercent cs

/-- Percent signs take in nothing behind a character that is no hexadecimal digit. -/
theorem decode_append_cons {c : Char} (hhex : hexDigit? c = none) (front rest : List Char) :
    decode (front ++ c :: rest) = decode front ++ decode (c :: rest) := by
  induction front using decode.induct with
  | case1 => rfl
  | case2 x y more a b hx hy ih =>
    simp only [List.cons_append, decode, hx, hy, ih]
  | case3 x y more hescape ih =>
    have hnone : hexDigit? x = none ∨ hexDigit? y = none := by
      rw [Option.eq_none_iff_forall_ne_some, or_iff_not_imp_left]
      intro hx
      obtain ⟨a, ha⟩ := Classical.not_forall_not.mp hx
      exact Option.eq_none_iff_forall_ne_some.mpr fun b hb => hescape a b ha hb
    have hplain (back : List Char) : decode ('%' :: x :: y :: (more ++ back)) =
        Text.utf8 ['%'] ++ decode (x :: y :: (more ++ back)) := by
      refine decode_cons_of_forall fun a b r _ hr => ?_
      obtain ⟨hx, hrest⟩ := List.cons.inj hr
      rwa [← hx, ← (List.cons.inj hrest).1]
    have hfront := hplain []
    rw [List.append_nil] at hfront
    rw [hfront, List.append_assoc, ← ih]
    exact hplain (c :: rest)
  | case4 d more hshort ih =>
    have hplain {back : List Char} (hback : back = [] ∨ back = c :: rest) :
        decode (d :: (more ++ back)) = Text.utf8 [d] ++ decode (more ++ back) := by
      refine decode_cons_of_forall fun a b r hd hr => ?_
      rcases more with _ | ⟨m, _ | ⟨n, tail⟩⟩
      · rcases hback with rfl | rfl
        · cases hr
        · exact Or.inl ((List.cons.inj hr).1 ▸ hhex)
      · rcases hback with rfl | rfl
        · cases hr
        · exact Or.inr ((List.cons.inj (List.cons.inj hr).2).1 ▸ hhex)
      · exact (hshort m n tail hd rfl).elim
    have hfront := hplain (Or.inl rfl)
    rw [List.append_nil] at hfront
    rw [hfront, List.append_assoc, ← ih]
    exact hplain (Or.inr rfl)

/-- The bytes of a name are read in the order in which it is written. -/
theorem decodeSegments_append (front back : List String) (hback : back ≠ []) :
    decodeSegments (front ++ back) = decodeSegments front ++ decodeSegments back := by
  obtain ⟨name, more, rfl⟩ := List.exists_cons_of_ne_nil hback
  rw [decodeSegments, List.flatMap_append, List.flatMap_cons, utf8_slash, List.singleton_append,
    List.cons_append, Text.decodeLossy_append (Text.asciiByte_lt (by decide)), decodeSegments,
    decodeSegments, List.flatMap_cons, utf8_slash]
  rfl

/-- A segment that is spelled with an extension stands for a name that is. -/
theorem decodeSegments_extension (he : IsFileExtension e) {stem : List Char}
    (hname : name.toList = stem ++ '.' :: e.toList) (n : Nat) :
    decodeSegments (name :: List.replicate n "") =
      "/" ++ Text.decodeLossy (decode stem) ++ "." ++ e ++ slashes n := by
  have hplain : ∀ c ∈ '.' :: e.toList, isPlain c = true := by
    intro c hc
    rcases List.mem_cons.mp hc with rfl | hc
    · decide
    · rw [isPlain, he.plain c hc, Bool.true_or]
  have hascii : ∀ c ∈ '.' :: e.toList ++ List.replicate n '/', c.val.toNat < 0x80 := by
    intro c hc
    rcases List.mem_append.mp hc with hc | hc
    · exact (unmarked_of_isPlain (hplain c hc)).ascii
    · rw [List.eq_of_mem_replicate hc]
      decide
  have hslashes : (List.replicate n "").flatMap (fun name =>
      Text.utf8 ['/'] ++ decode name.toList) = (List.replicate n '/').map Text.asciiByte := by
    rw [List.flatMap_replicate, List.map_replicate, utf8_slash]
    simp [decode]
  have hbytes : decode name.toList = decode stem ++ ('.' :: e.toList).map Text.asciiByte := by
    rw [hname, decode_append_cons (by decide), decode_plain hplain]
  rw [decodeSegments, List.flatMap_cons, hslashes, hbytes, utf8_slash, List.append_assoc,
    List.append_assoc, ← List.map_append, List.singleton_append,
    Text.decodeLossy_cons_ascii (Text.asciiByte_lt (by decide)), List.cons_append, List.map_cons,
    Text.decodeLossy_append (Text.asciiByte_lt (by decide)), ← List.map_cons, ← List.cons_append,
    Text.decodeLossy_ascii hascii, Text.ofNat_asciiByte (by decide), ← String.toList_inj]
  simp [slashes]

/-- The name of the file is spelled with an extension that the URL is spelled with, and is nothing
but that if the last name of the URL is. -/
theorem Writes.exists_fileName? (h : Writes u e) (he : IsFileExtension e)
    (hp : u.toPath? = some p) :
    ∃ name, p.fileName? = some name ∧ ('.' :: e.toList) <:+ name.toList ∧
      (u.lastName = "." ++ e → name = "." ++ e) := by
  obtain ⟨names, hlocation, hhost⟩ := toPath?_eq_some hp
  rw [toPath?_of_segments hhost hlocation] at hp
  have hne : u.lastName ≠ "" := by
    intro hempty
    rw [Writes, hempty] at h
    exact absurd (List.suffix_nil.mp h) (List.cons_ne_nil _ _)
  obtain ⟨front, n, hsplit⟩ := segmentsOf_eq_lastName hne
  obtain ⟨stem, hstem⟩ := h
  have htext : decodeSegments names = decodeSegments front ++
      ("/" ++ Text.decodeLossy (decode stem) ++ "." ++ e ++ slashes n) := by
    rw [← segmentsOf_eq hlocation, hsplit, decodeSegments_append _ _ (List.cons_ne_nil _ _),
      decodeSegments_extension he hstem.symm]
  have hmark : '/' ∈ ("/" ++ Text.decodeLossy (decode stem)).toList := by simp
  obtain ⟨dir, last, hlast, hslash⟩ := Path.exists_last_mark hmark
  have hending : ('.' :: e.toList) <:+ (String.ofList last ++ "." ++ e).toList :=
    ⟨last, by simp⟩
  have hfull : decodeSegments names = decodeSegments front ++ String.ofList dir ++ "/" ++
      (String.ofList last ++ "." ++ e) ++ slashes n := by
    have hcut : "/" ++ Text.decodeLossy (decode stem) =
        String.ofList dir ++ "/" ++ String.ofList last := by
      rw [← String.toList_inj, hlast]
      simp
    rw [htext, hcut]
    simp only [String.append_assoc]
  refine ⟨_, ?_, hending, fun hbare => ?_⟩
  rw [← Option.some.inj hp, Path.fileName?, parts_closeDrive, ← decodeSegments, hfull]
  · refine Path.fileName?_append_slashes (he.isName hending ?_) n
    simpa using ⟨hslash, he.not_mem (by decide)⟩
  · rw [← decodeSegments, hfull]
    simp
  · have hstem : stem = [] := by simpa [hbare] using hstem
    have hempty : Text.decodeLossy (decode stem) = "" := by
      rw [hstem]
      rfl
    have hlength := congrArg List.length hlast
    rw [hempty] at hlength
    obtain rfl : last = [] := List.length_eq_zero_iff.mp (by simp at hlength; omega)
    rfl

/-- If a URL is spelled with an extension, its file has it unless that is all of its name. -/
theorem Writes.extension?_iff (h : Writes u e) (he : IsFileExtension e) (hp : u.toPath? = some p) :
    p.extension? = some e ↔ p.fileName? ≠ some ("." ++ e) := by
  obtain ⟨name, hname, hending, -⟩ := h.exists_fileName? he hp
  rw [Path.extension?, hname, Option.bind_some,
    Path.extensionOfName?_eq_some_iff (he.not_mem (by decide))]
  simp [hending]

/-- A URL and its file tell an extension alike exactly when the file has it only where the URL is
spelled with it, and is named by nothing else only where the URL is. -/
theorem Formed.extension?_agrees_iff (h : Formed u) (hp : u.toPath? = some p)
    (he : IsFileExtension e) :
    (Location.extension? u.path = some e ↔ p.extension? = some e) ↔
      (p.extension? = some e → Writes u e) ∧
        (Writes u e → p.fileName? = some ("." ++ e) → u.lastName = "." ++ e) := by
  obtain ⟨names, hlocation, -⟩ := toPath?_eq_some hp
  rw [h.extension?_path_iff hlocation he]
  by_cases hwrites : Writes u e
  · obtain ⟨name, hname, -, hbare⟩ := hwrites.exists_fileName? he hp
    rw [hwrites.extension?_iff he hp]
    constructor
    · intro hagrees
      exact ⟨fun _ => hwrites, fun _ heq => Classical.not_not.mp fun hne =>
        hagrees.mp ⟨hwrites, hne⟩ heq⟩
    · rintro ⟨-, hshown⟩
      refine ⟨fun hne heq => hne.2 (hshown hwrites heq), fun hne => ⟨hwrites, fun heq => hne ?_⟩⟩
      rw [hname, hbare heq]
  · simp [hwrites]

end Url

end ScriptModules

import Mathlib.Data.List.Infix
import ScriptModules.Proofs.Files.Parts
import ScriptModules.Proofs.Text.Utf8
import ScriptModules.Proofs.Url.Encoding
import ScriptModules.Url.File

/-!
# Relative names

Joining a relative name of plain characters to the URL of a file steps through its segments and
leaves the last one as it is written. So the path of the result ends in the last name.
-/

namespace ScriptModules.Url

/-- Letters, digits, and the marks that stand in relative names. -/
def isPlain (c : Char) : Bool := c.isAlphanum || "_-./".toList.contains c

/-- What a plain character is not. -/
structure Unmarked (c : Char) : Prop where
  ascii : c.val.toNat < 0x80
  visible : 0x20 < c.val.toNat
  encoded : isEncodedInPath c = false
  marks : c ∉ ['?', '#', '\\', ':', '|', '%']

/-- Letters and digits are ASCII characters. -/
theorem isAlphanum_lt {c : Char} (h : c.isAlphanum = true) : c.val.toNat < 0x80 := by
  delta Char.isAlphanum Char.isAlpha Char.isUpper Char.isLower Char.isDigit at h
  simp only [Bool.or_eq_true, Bool.and_eq_true, decide_eq_true_eq, ge_iff_le,
    UInt32.le_iff_toNat_le] at h
  change c.toNat < 0x80
  simp at h
  omega

/-- A plain character is none of the marks. -/
theorem unmarked_of_isPlain {c : Char} (h : isPlain c = true) : Unmarked c := by
  have hascii : c.val.toNat < 0x80 := by
    rcases (Bool.or_eq_true _ _).mp h with h | h
    · exact isAlphanum_lt h
    · have hmark : c = '_' ∨ c = '-' ∨ c = '.' ∨ c = '/' := by simpa using h
      rcases hmark with rfl | rfl | rfl | rfl <;> decide
  have hall : ∀ n : Fin 0x80, isPlain (Char.ofNat n) = true → 0x20 < (Char.ofNat n).val.toNat ∧
      isEncodedInPath (Char.ofNat n) = false ∧
      Char.ofNat n ∉ ['?', '#', '\\', ':', '|', '%'] := by
    decide +kernel
  have hc : Char.ofNat c.val.toNat = c := Char.ofNat_toNat c
  obtain ⟨hvisible, hencoded, hmarks⟩ := by
    simpa only [hc] using hall ⟨c.val.toNat, hascii⟩ (by simpa only [hc] using h)
  exact ⟨hascii, hvisible, hencoded, hmarks⟩

/-- Plain characters are written as they are. -/
theorem encode_plain {cs : List Char} (h : ∀ c ∈ cs, isPlain c = true) :
    encode isEncodedInPath cs = cs :=
  encode_eq_self fun c hc => (unmarked_of_isPlain (h c hc)).encoded

/-- Plain characters are read as they are. -/
theorem decode_plain {cs : List Char} (h : ∀ c ∈ cs, isPlain c = true) :
    decode cs = cs.map Text.asciiByte := by
  induction cs with
  | nil => rfl
  | cons c rest ih =>
    have hc := unmarked_of_isPlain (h c List.mem_cons_self)
    have hpercent : c ≠ '%' := by
      rintro rfl
      exact hc.marks (by simp)
    rw [decode, Text.utf8_singleton_ascii hc.ascii, ih fun d hd => h d (List.mem_cons_of_mem _ hd)]
    · rfl
    · rintro a b r rfl
      exact absurd rfl hpercent

/-- A name of plain characters, relative to a directory, that does not end in a slash. -/
structure Relative (s : String) : Prop where
  front : Text.startsWith "./" s = true ∨ Text.startsWith "../" s = true
  plain : ∀ c ∈ s.toList, isPlain c = true
  named : s.toList.getLast? ≠ some '/'

/-- Nothing is cleaned from a plain text. -/
theorem clean_plain {s : String} (h : ∀ c ∈ s.toList, isPlain c = true) : clean s = s.toList := by
  have hedge (cs : List Char) (hcs : ∀ c ∈ cs, isPlain c = true) :
      cs.dropWhile (fun c => decide (c.val.toNat ≤ 0x20)) = cs := by
    cases cs with
    | nil => rfl
    | cons c rest =>
      have := (unmarked_of_isPlain (hcs c List.mem_cons_self)).visible
      rw [List.dropWhile_cons_of_neg (by simpa using this)]
  rw [clean, hedge _ h, hedge _ fun c hc => h c (List.mem_reverse.mp hc), List.reverse_reverse]
  refine List.filter_eq_self.mpr fun c hc => ?_
  have := (unmarked_of_isPlain (h c hc)).visible
  simp only [Bool.and_eq_true, bne_iff_ne]
  refine ⟨⟨?_, ?_⟩, ?_⟩ <;> rintro rfl <;> revert this <;> decide

/-- A relative name starts with a dot, and there is a slash after it. -/
theorem Relative.exists_front {s : String} (h : Relative s) :
    s.toList.head? = some '.' ∧ '/' ∈ s.toList := by
  rcases h.front with h | h <;> rw [Text.startsWith, List.isPrefixOf_iff_prefix] at h <;>
    obtain ⟨rest, hrest⟩ := h <;> rw [← hrest] <;> simp

/-- A relative name has no query and no fragment. -/
theorem Relative.splitPath_eq {s : String} (h : Relative s) :
    splitPath s.toList = (s.toList, []) := by
  have hpath : ∀ c ∈ s.toList, (c != '?' && c != '#') = true := by
    intro c hc
    have hmarks := (unmarked_of_isPlain (h.plain c hc)).marks
    rw [Bool.and_eq_true, bne_iff_ne, bne_iff_ne]
    constructor <;> rintro rfl <;> simp at hmarks
  rw [splitPath, List.span_eq_takeWhile_dropWhile, List.takeWhile_eq_self_iff.mpr hpath,
    List.dropWhile_eq_nil_iff.mpr hpath]

/-- A relative name takes the place of the last segment of the base. -/
theorem Relative.join_eq {base : Url} (hfile : base.scheme = "file") {s : String}
    (h : Relative s) : base.join s = match base.location with
      | .plain _ => .error .relativeWithPlainBase
      | .segments names => .ok { base with
          location := .segments (extend .file (dropSegment .file names) s.toList)
          query := none
          fragment := none } := by
  obtain ⟨hhead, hslash⟩ := h.exists_front
  obtain ⟨rest, hrest⟩ := List.head?_eq_some_iff.mp hhead
  cases rest with
  | nil => simp [hrest] at hslash
  | cons second rest =>
    have hscheme : splitScheme? s.toList = none := by
      rw [hrest]
      rfl
    have hsplit := h.splitPath_eq
    rw [join, parseWith, clean_plain h.plain, hscheme]
    rw [hrest] at hsplit ⊢
    cases hlocation : base.location with
    | plain text => simp
    | segments names =>
      have hdot : isDriveWith [':', '|'] ['.', second] = false := rfl
      simp [hlocation, hfile, SchemeKind.of, parseFile, SchemeKind.separates, parseFile.relative,
        startsWithDrive, continueBase, hsplit, queryAndFragment, segmentsOf, hdot]

/-- Only the characters after the last slash go to the last segment. -/
theorem exists_addSegments_append (names : List String) (segment front name : List Char) :
    ∃ names', addSegments .file names segment (front ++ '/' :: name) =
      addSegments .file names' [] name := by
  induction front generalizing names segment with
  | nil => exact ⟨_, if_pos rfl⟩
  | cons c rest ih =>
    rw [List.cons_append, addSegments]
    split
    · exact ih _ _
    · exact ih _ _

/-- Characters that separate nothing are read as one segment. -/
theorem addSegments_of_not_separates {name : List Char}
    (h : ∀ c ∈ name, SchemeKind.file.separates c = false) (names : List String)
    (segment : List Char) : addSegments .file names segment name =
      addSegment .file false names (segment.reverse ++ name) := by
  induction name generalizing segment with
  | nil => rw [addSegments, List.append_nil]
  | cons c rest ih =>
    rw [addSegments, if_neg (by simp [h c List.mem_cons_self]),
      ih fun d hd => h d (List.mem_cons_of_mem _ hd)]
    simp

/-- A name of plain characters that ends in a letter, other than the one that an encoded dot ends
in. So it is no step, however those are written. -/
structure LastName (name : List Char) : Prop where
  plain : ∀ c ∈ name, isPlain c = true
  slash : '/' ∉ name
  letter : ∃ c, name.getLast? = some c ∧ c.toLower ∉ ['.', 'e']

/-- A last name is not empty. -/
theorem LastName.ne_nil {name : List Char} (h : LastName name) : name ≠ [] := by
  rintro rfl
  obtain ⟨c, hc, -⟩ := h.letter
  simp at hc

/-- Steps end in dots, and encoded dots in a letter. -/
theorem LastName.not_mem_steps {name : List Char} (h : LastName name) {steps : List String}
    (hsteps : ∀ step ∈ steps, step.toList.getLast? = some '.' ∨ step.toList.getLast? = some 'e') :
    steps.contains (String.ofList (name.map Char.toLower)) = false := by
  obtain ⟨c, hc, hletter⟩ := h.letter
  rw [Bool.eq_false_iff, ne_eq, List.contains_iff_mem]
  intro hmem
  have hlast := hsteps _ hmem
  rw [String.toList_ofList, List.getLast?_map, hc] at hlast
  simp only [Option.map_some, Option.some.injEq] at hlast
  simp only [List.mem_cons, List.not_mem_nil, or_false] at hletter
  exact hletter hlast

/-- A last name is no step up. -/
theorem LastName.isUp_eq {name : List Char} (h : LastName name) : isUp name = false :=
  h.not_mem_steps (by simp)

/-- A last name is no step that stays. -/
theorem LastName.isHere_eq {name : List Char} (h : LastName name) : isHere name = false :=
  h.not_mem_steps (by simp)

/-- Nothing in a last name separates segments. -/
theorem LastName.not_separates {name : List Char} (h : LastName name) :
    ∀ c ∈ name, SchemeKind.file.separates c = false := by
  intro c hc
  have hmarks := (unmarked_of_isPlain (h.plain c hc)).marks
  have hslash : c ≠ '/' := by
    rintro rfl
    exact h.slash hc
  simp at hmarks
  simp [SchemeKind.separates, hslash, hmarks]

/-- A last name is added as the last segment. -/
theorem LastName.addSegment_eq {name : List Char} (h : LastName name) (names : List String) :
    addSegment .file false names name = names ++ [String.ofList name] := by
  have hdrive : isDriveWith [':', '|'] name = false := by
    unfold isDriveWith
    split
    · rename_i a b
      have := (unmarked_of_isPlain (h.plain b (by simp))).marks
      simp at this
      simp [this]
    · rfl
  rw [addSegment, if_neg (by simp [h.isUp_eq]), if_neg (by simp [h.isHere_eq]),
    if_neg (by simp [hdrive]), encode_plain h.plain]

/-- A path that is not empty at its end is not emptied by trimming its front. -/
theorem exists_trimFront_concat {last : String} (h : last ≠ "") (names : List String) :
    ∃ names', trimFront .file (names ++ [last]) = names' ++ [last] := by
  have hlast : [last].dropWhile (· == "") = [last] := by simp [h]
  have hdrop : ∃ names', (names ++ [last]).dropWhile (· == "") = names' ++ [last] := by
    rw [List.dropWhile_append, hlast]
    split
    · exact ⟨[], rfl⟩
    · exact ⟨_, rfl⟩
  obtain ⟨names', hdrop⟩ := hdrop
  refine ⟨names', ?_⟩
  rw [trimFront, if_pos (beq_self_eq_true _), hdrop]
  cases names' <;> rfl

/-- The last segment of what is appended to a path is the name after the last slash. -/
theorem LastName.exists_extend_eq {name : List Char} (h : LastName name) (names : List String)
    (front : List Char) : ∃ names', extend .file names (front ++ '/' :: name) =
      names' ++ [String.ofList name] := by
  obtain ⟨names', hsegments⟩ := exists_addSegments_append names [] front name
  rw [extend, hsegments, addSegments_of_not_separates h.not_separates, List.reverse_nil,
    List.nil_append, h.addSegment_eq]
  exact exists_trimFront_concat (by simpa [← String.toList_inj] using h.ne_nil) names'

/-- The file that a name stands for in a module. -/
def fileFrom? (base : Url) (s : String) : Option Path := (base.join s).toOption.bind toPath?

/-- A URL names a file if it has segments and no host but this one. -/
theorem toPath?_eq_some {u : Url} {p : Path} (h : u.toPath? = some p) :
    ∃ names, u.location = .segments names ∧
      (u.host? = none ∨ u.host? = some (.domain "localhost")) := by
  unfold toPath? at h
  split at h
  · cases h
  · rename_i names hlocation
    split at h
    · exact ⟨names, hlocation, ‹_›⟩
    · cases h

/-- The path of a URL without a host is that of its segments, decoded. -/
theorem toPath?_of_segments {u : Url} {names : List String}
    (hhost : u.host? = none ∨ u.host? = some (.domain "localhost"))
    (hlocation : u.location = .segments names) :
    u.toPath? = some ⟨closeDrive (Text.decodeLossy (names.flatMap fun name =>
      Text.utf8 ['/'] ++ decode name.toList))⟩ := by
  rw [toPath?, hlocation]
  exact if_pos hhost

/-- From a module that is no local file, no name stands for a file. -/
theorem Relative.fileFrom?_eq_none {base : Url} (hfile : base.scheme = "file")
    (hbase : base.toPath? = none) {s : String} (h : Relative s) : base.fileFrom? s = none := by
  rw [fileFrom?, h.join_eq hfile]
  cases hlocation : base.location with
  | plain text => rfl
  | segments names =>
    rw [toPath?, hlocation] at hbase
    dsimp only at hbase
    split at hbase
    · cases hbase
    · rename_i hhost
      exact if_neg hhost

/-- From a local file, every name stands for a file. -/
theorem Relative.exists_path {base : Url} (hfile : base.scheme = "file") {p : Path}
    (hbase : base.toPath? = some p) {s : String} (h : Relative s) :
    ∃ u path, base.join s = .ok u ∧ u.toPath? = some path := by
  obtain ⟨names, hlocation, hhost⟩ := toPath?_eq_some hbase
  refine ⟨_, _, by rw [h.join_eq hfile, hlocation], toPath?_of_segments ?_ rfl⟩
  exact hhost

/-- What ends in a plain character does not end like a drive. -/
theorem closeDrive_of_plain {s : String} {c : Char} (h : s.toList.getLast? = some c)
    (hc : isPlain c = true) : closeDrive s = s := by
  have hmarks := (unmarked_of_isPlain hc).marks
  rw [← List.head?_reverse] at h
  obtain ⟨rest, hrest⟩ := List.head?_eq_some_iff.mp h
  rw [closeDrive, hrest]
  simp at hmarks
  split
  · rename_i heq
    obtain ⟨rfl, -⟩ := List.cons.inj heq
    simp [hmarks]
  · rfl

/-- A slash is one byte. -/
theorem utf8_slash : Text.utf8 ['/'] = [Text.asciiByte '/'] :=
  Text.utf8_singleton_ascii (by decide)

/-- The text of the segments of a path. -/
def decodeSegments (names : List String) : String :=
  Text.decodeLossy (names.flatMap fun name => Text.utf8 ['/'] ++ decode name.toList)

/-- The path of a URL ends in its last segment. -/
theorem LastName.toPath?_eq {name : List Char} (h : LastName name) {u : Url}
    {names : List String} (hhost : u.host? = none ∨ u.host? = some (.domain "localhost"))
    (hlocation : u.location = .segments (names ++ [String.ofList name])) :
    u.toPath? = some ⟨decodeSegments names ++ "/" ++ String.ofList name⟩ := by
  have hascii : ∀ c ∈ '/' :: name, c.val.toNat < 0x80 := by
    intro c hc
    rcases List.mem_cons.mp hc with rfl | hc
    · decide
    · exact (unmarked_of_isPlain (h.plain c hc)).ascii
  obtain ⟨c, hlast, -⟩ := h.letter
  have htext : Text.decodeLossy ((names ++ [String.ofList name]).flatMap fun name =>
      Text.utf8 ['/'] ++ decode name.toList) =
      decodeSegments names ++ "/" ++ String.ofList name := by
    rw [List.flatMap_append, List.flatMap_cons, List.flatMap_nil, List.append_nil,
      String.toList_ofList, decode_plain h.plain, utf8_slash, List.singleton_append,
      Text.decodeLossy_append (Text.asciiByte_lt (by decide)), ← List.map_cons,
      Text.decodeLossy_ascii hascii, String.ofList_cons, String.append_assoc, decodeSegments,
      utf8_slash]
    rfl
  rw [toPath?_of_segments hhost hlocation, htext]
  refine congrArg (fun text => some (Path.mk text)) (closeDrive_of_plain (c := c) ?_ ?_)
  · simp [hlast, List.getLast?_append, List.getLast?_cons]
  · exact h.plain c (List.mem_of_getLast? hlast)

/-- Plain segments are read as they are. -/
theorem decodeSegments_plain {names : List String}
    (h : ∀ name ∈ names, ∀ c ∈ name.toList, isPlain c = true) :
    decodeSegments names = String.ofList (names.flatMap fun name => '/' :: name.toList) := by
  have hbytes : (names.flatMap fun name => Text.utf8 ['/'] ++ decode name.toList) =
      (names.flatMap fun name => '/' :: name.toList).map Text.asciiByte := by
    rw [List.map_flatMap]
    refine List.flatMap_congr fun name hname => ?_
    rw [decode_plain (h name hname), utf8_slash]
    rfl
  rw [decodeSegments, hbytes, Text.decodeLossy_ascii]
  intro c hc
  obtain ⟨name, hname, hc⟩ := List.mem_flatMap.mp hc
  rcases List.mem_cons.mp hc with rfl | hc
  · decide
  · exact (unmarked_of_isPlain (h name hname c hc)).ascii

/-- A last name is a name in a path. -/
theorem LastName.isName {name : List Char} (h : LastName name) :
    Path.IsName (String.ofList name) := by
  obtain ⟨c, hlast, hletter⟩ := h.letter
  have hdot : ¬ String.ofList name = "." ∧ ¬ String.ofList name = ".." := by
    constructor <;> intro hname <;> rw [← String.toList_inj, String.toList_ofList] at hname <;>
      rw [hname] at hlast <;> simp at hlast <;> rw [← hlast] at hletter <;>
      exact hletter (by decide)
  have hempty : ¬ String.ofList name = "" := by simpa [← String.toList_inj] using h.ne_nil
  exact ⟨by simpa using h.slash, by simp [Path.isIdle, hdot.1, hempty], hdot.2⟩

/-- Letters after a dot, the last of which is not the one that an encoded dot ends in. -/
structure IsExtension (e : String) (letters : List Char) : Prop where
  toList_eq : e.toList = '.' :: letters
  plain : ∀ c ∈ letters, c.isAlphanum = true
  letter : ∃ c, letters.getLast? = some c ∧ c.toLower ∉ ['.', 'e']

/-- An extension has letters and digits alone. -/
theorem IsExtension.not_mem {e : String} {letters : List Char} (h : IsExtension e letters)
    {c : Char} (hc : c.isAlphanum = false) : c ∉ letters := by
  intro hmem
  rw [h.plain c hmem] at hc
  cases hc

/-- What is appended to a relative name leaves it one if it is plain and ends in no slash. -/
theorem Relative.append {s : String} (h : Relative s) {t : String}
    (hplain : ∀ c ∈ t.toList, isPlain c = true) {c : Char} (hlast : t.toList.getLast? = some c)
    (hc : c ≠ '/') : Relative (s ++ t) where
  front := by
    refine h.front.imp (fun h => ?_) (fun h => ?_) <;>
      rw [Text.startsWith, List.isPrefixOf_iff_prefix] at h ⊢ <;>
      exact h.trans (by simp)
  plain d hd := by
    rw [String.toList_append, List.mem_append] at hd
    exact hd.elim (h.plain d) (hplain d)
  named := by
    rw [String.toList_append, List.getLast?_append, hlast]
    simpa using hc

/-- A relative name with an extension is one. -/
theorem Relative.append_extension {s : String} (h : Relative s) {e : String} {letters : List Char}
    (he : IsExtension e letters) : Relative (s ++ e) := by
  obtain ⟨c, hc, -⟩ := he.letter
  refine h.append (c := c) ?_ (by rw [he.toList_eq, List.getLast?_cons, hc]; rfl) ?_
  · intro d hd
    rw [he.toList_eq] at hd
    rcases List.mem_cons.mp hd with rfl | hd
    · decide
    · rw [isPlain, he.plain d hd, Bool.true_or]
  · rintro rfl
    exact he.not_mem (by decide) (List.mem_of_getLast? hc)

/-- A relative name has a last name, after a slash. -/
theorem Relative.exists_last {s : String} (h : Relative s) :
    ∃ front name, s.toList = front ++ '/' :: name ∧ '/' ∉ name ∧ name ≠ [] := by
  obtain ⟨-, hslash⟩ := h.exists_front
  obtain ⟨back, front, hreverse, hback⟩ := List.eq_append_cons_of_mem (List.mem_reverse.mpr hslash)
  have hs : s.toList = front.reverse ++ '/' :: back.reverse := by
    rw [← List.reverse_reverse s.toList, hreverse]
    simp
  refine ⟨front.reverse, back.reverse, hs, by simpa using hback, ?_⟩
  intro hempty
  exact h.named (by rw [hs, hempty]; simp)

/-- A relative name with an extension stands for a file with that extension. -/
theorem Relative.exists_file {base : Url} (hfile : base.scheme = "file") {p : Path}
    (hbase : base.toPath? = some p) {s : String} (h : Relative s) {e : String}
    {letters : List Char} (he : IsExtension e letters) :
    ∃ u path, base.join (s ++ e) = .ok u ∧ u.toPath? = some path ∧ Path.EndsInName path ∧
      path.extension? = some (String.ofList letters) := by
  obtain ⟨names, hlocation, hhost⟩ := toPath?_eq_some hbase
  obtain ⟨front, stem, hs, hslash, hstem⟩ := h.exists_last
  have hrelative := h.append_extension he
  have hsplit : (s ++ e).toList = front ++ '/' :: (stem ++ '.' :: letters) := by
    rw [String.toList_append, hs, he.toList_eq, List.append_assoc, List.cons_append]
  have hname : LastName (stem ++ '.' :: letters) := by
    refine ⟨fun c hc => hrelative.plain c ?_, ?_, ?_⟩
    · rw [hsplit]
      exact List.mem_append_right _ (List.mem_cons_of_mem _ hc)
    · simpa [hslash] using he.not_mem (c := '/') (by decide)
    · obtain ⟨c, hc, hletter⟩ := he.letter
      exact ⟨c, by simp [List.getLast?_append, List.getLast?_cons, hc], hletter⟩
  obtain ⟨names', hextend⟩ := hname.exists_extend_eq (dropSegment .file names) front
  rw [← hsplit] at hextend
  let u : Url := { base with
    location := .segments (extend .file (dropSegment .file names) (s ++ e).toList)
    query := none
    fragment := none }
  have hpath := hname.toPath?_eq (u := u) hhost (congrArg UrlPath.segments hextend)
  refine ⟨u, _, by rw [hrelative.join_eq hfile, hlocation], hpath,
    Path.endsInName_append hname.isName, ?_⟩
  rw [Path.extension?, Path.fileName?_append hname.isName]
  exact Path.extensionOfName?_append hstem (he.not_mem (by decide))

/-- A name in the directory of a module. -/
def beside (name : List Char) : String := String.ofList ('.' :: '/' :: name)

/-- A name in the directory of a module is relative. -/
theorem LastName.relative_beside {name : List Char} (h : LastName name) :
    Relative (beside name) := by
  obtain ⟨c, hc, -⟩ := h.letter
  refine ⟨Or.inl ?_, ?_, ?_⟩
  · rw [Text.startsWith, List.isPrefixOf_iff_prefix]
    simp [beside, List.cons_prefix_cons]
  · intro d hd
    rw [beside, String.toList_ofList] at hd
    rcases List.mem_cons.mp hd with rfl | hd
    · decide
    · rcases List.mem_cons.mp hd with rfl | hd
      · decide
      · exact h.plain d hd
  · rw [beside, String.toList_ofList, List.getLast?_cons, List.getLast?_cons, hc]
    rintro heq
    obtain rfl : c = '/' := by simpa using heq
    exact h.slash (List.mem_of_getLast? hc)

/-- A name in the directory of a module takes the place of the last segment. -/
theorem LastName.extend_beside {name : List Char} (h : LastName name) {first : String}
    (hfirst : first ≠ "") (rest : List String) :
    extend .file (first :: rest) (beside name).toList = first :: rest ++ [String.ofList name] := by
  have hhere : addSegment .file true (first :: rest) ['.'] = first :: rest := by
    rw [addSegment, if_neg (by decide), if_pos (by decide)]
    rfl
  have hsegments : addSegments .file (first :: rest) [] ('.' :: '/' :: name) =
      addSegments .file (first :: rest) [] name := by
    rw [addSegments, if_neg (by decide), addSegments, if_pos (by decide)]
    exact congrArg (addSegments .file · [] name) hhere
  rw [extend, beside, String.toList_ofList, hsegments,
    addSegments_of_not_separates h.not_separates, List.reverse_nil, List.nil_append,
    h.addSegment_eq, trimFront, if_pos (beq_self_eq_true _), List.cons_append,
    List.dropWhile_cons_of_neg (by simpa using hfirst)]

end ScriptModules.Url

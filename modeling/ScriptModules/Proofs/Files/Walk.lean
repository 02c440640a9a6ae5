import ScriptModules.Files.Tree
import ScriptModules.Proofs.Except
import ScriptModules.Proofs.Files.Parts

/-!
# Walking a tree

What stands at a path depends on its parts, as long as its text is short enough to be followed and
ends in a name. Above whatever stands in a tree there are directories.
-/

namespace ScriptModules

namespace Path

/-- The piece that stands for a part. -/
def Part.piece : Part → String
  | .root => ""
  | .here => "."
  | .up => ".."
  | .name s => s

/-- The pieces of an absolute path that lead on. -/
def steps (p : Path) : List String := (p.parts.drop 1).map Part.piece

/-- The part that a piece stands for is written as the piece. -/
theorem piece_of_partOf? {piece : String} {part : Part} (h : partOf? piece = some part) :
    part.piece = piece := by
  unfold partOf? at h
  split at h
  · cases h
  · split at h
    · rename_i hup
      obtain rfl := Option.some.inj h
      exact (beq_iff_eq.mp hup).symm
    · obtain rfl := Option.some.inj h
      rfl

/-- Writing the parts of some pieces leaves the idle ones out. -/
theorem map_piece_filterMap_partOf? (ps : List String) :
    (ps.filterMap partOf?).map Part.piece = ps.filter (!isIdle ·) := by
  induction ps with
  | nil => rfl
  | cons piece rest ih =>
    cases hpart : partOf? piece with
    | none =>
      have hidle : isIdle piece = true := by
        unfold partOf? at hpart
        split at hpart
        · assumption
        · split at hpart <;> cases hpart
      rw [List.filterMap_cons_none hpart, ih, List.filter_cons_of_neg (by simp [hidle])]
    | some part =>
      have hreal : isIdle piece = false := by
        rw [Bool.eq_false_iff]
        intro hidle
        simp [partOf?, hidle] at hpart
      rw [List.filterMap_cons_some hpart, List.map_cons, ih, piece_of_partOf? hpart,
        List.filter_cons_of_pos (by simp [hreal])]

/-- An absolute path starts with an empty piece. -/
theorem exists_pieces_of_isAbsolute {p : Path} (h : p.isAbsolute = true) :
    p.text ≠ "" ∧ ∃ rest, p.pieces = "" :: rest := by
  obtain ⟨cs, hcs⟩ := List.head?_eq_some_iff.mp (beq_iff_eq.mp h)
  refine ⟨fun htext => by simp [htext] at hcs, (Text.splitAt '/' cs).map String.ofList, ?_⟩
  rw [pieces, hcs, Text.splitAt_cons_mark]
  rfl

/-- Absolute paths start with the root. -/
theorem isAbsolute_iff {p : Path} : p.isAbsolute = true ↔ p.parts.head? = some .root := by
  constructor
  · intro h
    obtain ⟨hne, rest, hrest⟩ := exists_pieces_of_isAbsolute h
    rw [parts_eq hne hrest]
    rfl
  · intro h
    have hne : p.text ≠ "" := by
      intro hempty
      rw [parts_of_text_eq_empty hempty] at h
      cases h
    obtain ⟨first, rest, hpieces⟩ := List.exists_cons_of_ne_nil (pieces_ne_nil p)
    obtain ⟨part, hpart, hroot⟩ := exists_start_eq first
    rw [parts_eq hne hpieces, hpart] at h
    obtain rfl := hroot (by simpa using h)
    cases rest with
    | nil => exact absurd (text_eq_empty_of_pieces hpieces) hne
    | cons second rest =>
      rw [isAbsolute, text_eq_intercalate, hpieces, String.intercalate_cons_cons]
      simp

/-- The parent of an absolute path is absolute. -/
theorem isAbsolute_of_parent? {p q : Path} (hp : p.isAbsolute = true) (h : p.parent? = some q) :
    q.isAbsolute = true := by
  obtain ⟨part, hroot, hparts⟩ := exists_parts_of_parent? h
  rw [isAbsolute_iff, hparts] at hp
  rw [isAbsolute_iff]
  cases hempty : q.parts with
  | nil =>
    rw [hempty] at hp
    exact absurd (Option.some.inj hp) hroot
  | cons first rest =>
    rw [hempty] at hp
    exact hp

/-- What stands above an absolute path is absolute. -/
theorem isAbsolute_of_mem_ancestors {p q : Path} (hp : p.isAbsolute = true)
    (h : q ∈ p.ancestors) : q.isAbsolute = true :=
  of_mem_ancestors (motive := fun q => q.isAbsolute = true)
    (fun _ _ hq hr => isAbsolute_of_parent? hq hr) hp h

/-- More parts after those of a path are more pieces that lead on. -/
theorem steps_of_parts_eq {p q : Path} (hq : q.isAbsolute = true) {more : List Part}
    (h : p.parts = q.parts ++ more) : p.steps = q.steps ++ more.map Part.piece := by
  obtain ⟨rest, hrest⟩ := List.head?_eq_some_iff.mp (isAbsolute_iff.mp hq)
  simp [steps, h, hrest]

/-- The pieces that lead on are those after the root that are not idle. -/
theorem filter_pieces_of_isAbsolute {p : Path} (h : p.isAbsolute = true) :
    (p.pieces.drop 1).filter (!isIdle ·) = p.steps := by
  obtain ⟨hne, rest, hrest⟩ := exists_pieces_of_isAbsolute h
  rw [hrest, steps, parts_eq hne hrest, ← map_piece_filterMap_partOf?]
  rfl

/-- The parts of the first piece are written as that piece. -/
theorem map_piece_start (first : String) : (start first).map Part.piece = [first] := by
  unfold start
  split
  · rename_i h
    rw [beq_iff_eq.mp h]
    rfl
  · split
    · rename_i h
      rw [beq_iff_eq.mp h]
      rfl
    · rename_i hempty hdot
      have hreal : isIdle first = false := by simpa [isIdle] using And.intro hempty hdot
      cases hpart : partOf? first with
      | none =>
        exfalso
        unfold partOf? at hpart
        rw [hreal] at hpart
        split at hpart
        · contradiction
        · split at hpart <;> cases hpart
      | some part =>
        simp [piece_of_partOf? hpart]

/-- Apart from slashes and dots, a path has the characters of its parts. -/
theorem mem_text_iff {p : Path} {c : Char} (hslash : c ≠ '/') (hdot : c ≠ '.') :
    c ∈ p.text.toList ↔ ∃ piece ∈ p.parts.map Part.piece, c ∈ piece.toList := by
  by_cases hne : p.text = ""
  · simp [parts_of_text_eq_empty hne, hne]
  · obtain ⟨first, rest, hpieces⟩ := List.exists_cons_of_ne_nil (pieces_ne_nil p)
    have hidle : ∀ piece ∈ rest, c ∈ piece.toList → isIdle piece = false := by
      intro piece _ hc
      rw [Bool.eq_false_iff]
      intro hidle
      rcases (Bool.or_eq_true _ _).mp hidle with h | h <;> rw [beq_iff_eq.mp h] at hc
      · simp at hc
      · exact hdot (by simpa using hc)
    have htext : c ∈ p.text.toList ↔ ∃ piece ∈ p.pieces, c ∈ piece.toList := by
      rw [Text.mem_iff_exists_mem_splitAt hslash, pieces]
      simp
    rw [htext, parts_eq hne hpieces, List.map_append, map_piece_start,
      map_piece_filterMap_partOf?, hpieces]
    constructor
    · rintro ⟨piece, hpiece, hc⟩
      refine ⟨piece, ?_, hc⟩
      rcases List.mem_cons.mp hpiece with rfl | hpiece
      · simp
      · simp [hpiece, hidle piece hpiece hc]
    · rintro ⟨piece, hpiece, hc⟩
      refine ⟨piece, ?_, hc⟩
      rcases List.mem_append.mp hpiece with hpiece | hpiece
      · exact List.mem_of_mem_head? (by simpa using (List.mem_singleton.mp hpiece).symm)
      · exact List.mem_cons_of_mem _ (List.mem_filter.mp hpiece).1

/-- A path from the root stays one when a name is joined. -/
theorem isAbsolute_join {p : Path} {name : String} (h : p.isAbsolute = true)
    (hname : IsName name) : (p.join name).isAbsolute = true := by
  rw [isAbsolute_iff] at h ⊢
  rw [parts_join hname, List.head?_append, h]
  rfl

/-- A character that is neither in a path nor in a name is in no path that joins the name to a
front of the path. -/
theorem not_mem_text_join {p q : Path} {rest : List Part} {name : String} {c : Char}
    (hparts : p.parts = q.parts ++ rest) (hc : c ∉ p.text.toList) (hname : IsName name)
    (hcname : c ∉ name.toList) (hslash : c ≠ '/') (hdot : c ≠ '.') :
    c ∉ (q.join name).text.toList := by
  rw [mem_text_iff hslash hdot, parts_join hname]
  rintro ⟨piece, hpiece, hmem⟩
  rw [List.map_append, List.mem_append] at hpiece
  rcases hpiece with hpiece | hpiece
  · refine hc ((mem_text_iff hslash hdot).mpr ⟨piece, ?_, hmem⟩)
    rw [hparts, List.map_append]
    exact List.mem_append_left _ hpiece
  · obtain rfl := List.mem_singleton.mp hpiece
    exact hcname hmem

end Path

/-- A file that holds a text. -/
def Files.Entry.ofText (s : String) : Files.Entry := .file s.toByteArray.data.toList

namespace Files.Tree

open ScriptModules.Path (isIdle EndsInName)

variable {t : Tree}

/-- There is nothing below what is no directory. -/
theorem follow_cons_of_not_directory {way : List String} (h : t.at? way ≠ some .directory)
    (piece : String) (rest : List String) :
    t.follow way (piece :: rest) =
      .error (if t.at? way = none then .notFound else .notDirectory) := by
  rw [follow]
  split
  · rename_i hat
    simp [hat]
  · rename_i hat
    simp [hat]
  · rename_i hat
    exact absurd hat h

/-- Whatever can be followed further is a directory. -/
theorem at?_of_follow_cons {way way' : List String} {piece : String} {rest : List String}
    (h : t.follow way (piece :: rest) = .ok way') : t.at? way = some .directory := by
  by_contra hat
  rw [follow_cons_of_not_directory hat] at h
  cases h

/-- An idle piece stays where it is, in a directory. -/
theorem follow_cons_idle {way : List String} (h : t.at? way = some .directory) {piece : String}
    (hidle : isIdle piece = true) (rest : List String) :
    t.follow way (piece :: rest) = t.follow way rest := by
  rw [follow, h]
  simp only [isIdle] at hidle
  simp only [hidle, if_true]

/-- A name is entered, in a directory. -/
theorem follow_cons_name {way : List String} (h : t.at? way = some .directory) {name : String}
    (hname : Path.partOf? name = some (.name name)) (rest : List String) :
    t.follow way (name :: rest) = if name.utf8ByteSize > longestName then .error .nameTooLong
      else t.follow (way ++ [name]) rest := by
  have hidle : isIdle name = false := by
    rw [Bool.eq_false_iff]
    intro hidle
    simp [Path.partOf?, hidle] at hname
  have hup : ¬ (name == "..") = true := by
    intro hup
    simp [Path.partOf?, hidle, hup] at hname
  have hreal : (name == "" || name == ".") = false := hidle
  rw [follow, h]
  dsimp only
  rw [hreal, if_neg Bool.false_ne_true, if_neg hup]

/-- Where pieces follow, idle ones can be left out. -/
theorem follow_filter_append (way ps : List String) (last : String) :
    t.follow way (ps ++ [last]) = t.follow way (ps.filter (!isIdle ·) ++ [last]) := by
  induction ps generalizing way with
  | nil => rfl
  | cons piece rest ih =>
    by_cases hat : t.at? way = some .directory
    · cases hidle : isIdle piece with
      | true =>
        rw [List.cons_append, follow_cons_idle hat hidle, ih,
          List.filter_cons_of_neg (by simp [hidle])]
      | false =>
        rw [List.filter_cons_of_pos (by simp [hidle]), List.cons_append, List.cons_append, follow,
          follow, hat]
        simp only [ih]
    · obtain ⟨piece', rest', hfront⟩ : ∃ piece' rest',
          (piece :: rest).filter (!isIdle ·) ++ [last] = piece' :: rest' :=
        List.exists_cons_of_ne_nil (by simp)
      rw [hfront, List.cons_append, follow_cons_of_not_directory hat,
        follow_cons_of_not_directory hat]

/-- Pieces that can be followed can be followed without the idle ones. -/
theorem follow_filter_of_ok {way way' ps : List String} (h : t.follow way ps = .ok way') :
    t.follow way (ps.filter (!isIdle ·)) = .ok way' := by
  induction ps generalizing way with
  | nil => exact h
  | cons piece rest ih =>
    by_cases hat : t.at? way = some .directory
    · cases hidle : isIdle piece with
      | true =>
        rw [follow_cons_idle hat hidle] at h
        rw [List.filter_cons_of_neg (by simp [hidle]), ih h]
      | false =>
        rw [List.filter_cons_of_pos (by simp [hidle])]
        rw [follow, hat] at h ⊢
        dsimp only at h ⊢
        split at h
        · rw [if_pos ‹_›, ih h]
        · split at h
          · rw [if_neg ‹_›, if_pos ‹_›, ih h]
          · split at h
            · cases h
            · rw [if_neg ‹_›, if_neg ‹_›, if_neg ‹_›, ih h]
    · rw [follow_cons_of_not_directory hat] at h
      cases h

/-- Pieces are followed one after the other. -/
theorem follow_append (way front back : List String) :
    t.follow way (front ++ back) = (t.follow way front).bind fun way => t.follow way back := by
  induction front generalizing way with
  | nil => rfl
  | cons piece rest ih =>
    rw [List.cons_append, follow, follow]
    repeat' split
    all_goals first | exact ih _ | rfl

/-- What follows all pieces follows the first ones and then the others. -/
theorem exists_of_follow_append {way front back after : List String}
    (h : t.follow way (front ++ back) = .ok after) :
    ∃ between, t.follow way front = .ok between ∧ t.follow between back = .ok after := by
  rw [follow_append] at h
  cases hfront : t.follow way front with
  | error cause =>
    rw [hfront] at h
    cases h
  | ok between =>
    rw [hfront] at h
    exact ⟨between, rfl, h⟩

/-- Whether the text of a path is more than can be followed. -/
def TooLong (p : Path) : Prop := longestPath < p.text.utf8ByteSize

/-- An absolute path that ends in a name is followed step by step. -/
theorem follow_pieces {p : Path} (habsolute : p.isAbsolute = true) (h : EndsInName p) :
    t.follow [] (p.pieces.drop 1) = t.follow [] p.steps := by
  rw [← Path.filter_pieces_of_isAbsolute habsolute]
  obtain ⟨-, rest, hrest⟩ := Path.exists_pieces_of_isAbsolute habsolute
  obtain ⟨front, last, hpieces, hreal⟩ := h
  rw [hrest] at hpieces
  cases front with
  | nil =>
    obtain rfl : "" = last := by simpa using (List.cons.inj hpieces).1
    exact absurd hreal (by decide)
  | cons first front =>
    obtain rfl : rest = front ++ [last] := (List.cons.inj hpieces).2
    rw [hrest, List.drop_succ_cons, List.drop_zero, follow_filter_append, List.filter_append,
      List.filter_cons_of_pos (by simp [hreal]), List.filter_nil]

/-- What a way of a path says about its text. -/
theorem wayOf_eq_ok {p : Path} {way : List String} (h : t.wayOf p = .ok way) :
    '\x00' ∉ p.text.toList ∧ p.isAbsolute = true ∧
      t.follow [] (p.pieces.drop 1) = .ok way := by
  unfold wayOf at h
  split at h
  · cases h
  · rename_i hzero
    split at h
    · cases h
    · split at h
      · exact ⟨by simpa using hzero, ‹_›, h⟩
      · cases h

/-- What stands at the end of the way stands at the path. -/
theorem entry_of_wayOf {p : Path} {way : List String} (h : t.wayOf p = .ok way) :
    t.entry p = match t.at? way with
      | some e => .ok e
      | none => .error .notFound := by
  rw [entry, h]
  cases hat : t.at? way <;> simp only [bind, Except.bind, hat] <;> rfl

/-- An entry is found at the end of a way. -/
theorem entry_eq_ok {p : Path} {e : Entry} (h : t.entry p = .ok e) :
    ∃ way, t.wayOf p = .ok way ∧ t.at? way = some e := by
  cases hway : t.wayOf p with
  | error cause => simp [entry, hway, bind, Except.bind] at h
  | ok way =>
    refine ⟨way, rfl, ?_⟩
    rw [entry_of_wayOf hway] at h
    cases hat : t.at? way with
    | none =>
      rw [hat] at h
      cases h
    | some e' =>
      rw [hat] at h
      rw [Except.ok.inj h]

/-- A file is reached by a way. -/
theorem exists_way_of_isFile {p : Path} (h : t.isFile p = true) :
    ∃ way, t.wayOf p = .ok way := by
  cases hway : t.wayOf p with
  | ok way => exact ⟨way, rfl⟩
  | error cause => simp [isFile, entry, hway, bind, Except.bind] at h

/-- A file is only found by a path from the root. -/
theorem isAbsolute_of_isFile {p : Path} (h : t.isFile p = true) : p.isAbsolute = true :=
  (wayOf_eq_ok (exists_way_of_isFile h).choose_spec).2.1

/-- Only a name leads to a part that is a name. -/
theorem partOf?_of_mem_parts {p : Path} (h : p.isAbsolute = true) {name : String}
    (hname : .name name ∈ p.parts) : Path.partOf? name = some (.name name) := by
  obtain ⟨hne, rest, hrest⟩ := Path.exists_pieces_of_isAbsolute h
  have hmem : Path.Part.name name ∈ Path.start "" ++ rest.filterMap Path.partOf? := by
    rwa [← Path.parts_eq hne hrest]
  rcases List.mem_append.mp hmem with hmem | hmem
  · exact absurd (List.mem_singleton.mp hmem) (by simp)
  · obtain ⟨piece, -, hpiece⟩ := List.mem_filterMap.mp hmem
    obtain rfl : name = piece := Path.piece_of_partOf? hpiece
    exact hpiece

/-- A way ends in the name that its path ends in. -/
theorem getLast?_of_wayOf {p : Path} {way : List String} (h : t.wayOf p = .ok way) {name : String}
    (hname : p.fileName? = some name) : way.getLast? = some name := by
  obtain ⟨-, habsolute, hfollow⟩ := wayOf_eq_ok h
  have hsteps := follow_filter_of_ok hfollow
  obtain ⟨front, hfront⟩ : ∃ front, p.parts = front ++ [.name name] := by
    refine List.getLast?_eq_some_iff.mp ?_
    unfold Path.fileName? at hname
    split at hname
    · rename_i hlast
      rwa [Option.some.inj hname] at hlast
    · cases hname
  have hmem : .name name ∈ p.parts := by simp [hfront]
  have hpart := partOf?_of_mem_parts habsolute hmem
  obtain ⟨more, rfl⟩ : ∃ more, front = .root :: more := by
    have hroot := Path.isAbsolute_iff.mp habsolute
    cases front with
    | nil => simp [hfront] at hroot
    | cons first more => exact ⟨more, by simpa [hfront] using hroot⟩
  have heq : p.steps = more.map Path.Part.piece ++ [name] := by
    simp [Path.steps, hfront, Path.Part.piece]
  rw [Path.filter_pieces_of_isAbsolute habsolute, heq] at hsteps
  obtain ⟨above, -, habove⟩ := exists_of_follow_append hsteps
  rw [follow_cons_name (at?_of_follow_cons habove) hpart] at habove
  split at habove
  · cases habove
  · rw [follow] at habove
    rw [← Except.ok.inj habove, List.getLast?_concat]

/-- Two spellings of a path that both end in a name lead to the same place, unless one of them is
too long for that. -/
theorem wayOf_congr {p q : Path} (hparts : p.parts = q.parts) (hp : EndsInName p)
    (hq : EndsInName q) (hshort : ¬ TooLong q) :
    t.wayOf p = t.wayOf q ∨ TooLong p ∧ t.wayOf p = .error .nameTooLong := by
  have hzero : p.text.toList.contains '\x00' = q.text.toList.contains '\x00' := by
    rw [Bool.eq_iff_iff, List.contains_iff_mem, List.contains_iff_mem,
      Path.mem_text_iff (by decide) (by decide), Path.mem_text_iff (by decide) (by decide), hparts]
  have habsolute : p.isAbsolute = q.isAbsolute := by
    rw [Bool.eq_iff_iff, Path.isAbsolute_iff, Path.isAbsolute_iff, hparts]
  unfold wayOf
  rw [hzero, habsolute, if_neg (show ¬ q.text.utf8ByteSize > longestPath from hshort)]
  by_cases hnul : q.text.toList.contains '\x00' = true
  · simp only [hnul, if_true, true_or]
  · simp only [hnul, if_false, Bool.false_eq_true]
    by_cases hlong : p.text.utf8ByteSize > longestPath
    · exact Or.inr ⟨hlong, by simp only [hlong, if_true]⟩
    · rw [if_neg hlong]
      by_cases habs : q.isAbsolute = true
      · have hfollow : t.follow [] (p.pieces.drop 1) = t.follow [] (q.pieces.drop 1) := by
          rw [follow_pieces (habsolute.trans habs) hp, follow_pieces habs hq, Path.steps,
            Path.steps, hparts]
        exact Or.inl (by rw [hfollow])
      · simp only [habs, if_false, Bool.false_eq_true, true_or]

/-- Two spellings of a path that both end in a name read the same, unless one of them is too long
for that. -/
theorem readText_congr {p q : Path} (hparts : p.parts = q.parts) (hp : EndsInName p)
    (hq : EndsInName q) (hshort : ¬ TooLong q) :
    t.readText p = t.readText q ∨ TooLong p ∧ t.readText p = .error .nameTooLong := by
  rcases wayOf_congr (t := t) hparts hp hq hshort with hway | ⟨hlong, hway⟩
  · exact Or.inl (by rw [readText, readText, read, read, entry, entry, hway])
  · exact Or.inr ⟨hlong, by simp [readText, read, entry, hway, bind, Except.bind]⟩

/-- A text that is read is that of a file at the end of a way. -/
theorem of_readText_eq_ok {p : Path} {content : String} (h : t.readText p = .ok content) :
    ∃ way bytes, t.wayOf p = .ok way ∧ t.at? way = some (.file bytes) ∧
      Text.decode? bytes = some content := by
  obtain ⟨bytes, hbytes, hdecode⟩ := exists_of_bind_eq_ok h
  obtain ⟨entry, hentry, hfile⟩ := exists_of_bind_eq_ok hbytes
  obtain ⟨way, hway, hat⟩ := entry_eq_ok hentry
  cases entry with
  | directory => cases hfile
  | file bytes' =>
    obtain rfl := Except.ok.inj hfile
    refine ⟨way, bytes', hway, hat, ?_⟩
    split at hdecode
    · rename_i hsome
      rw [hsome, Except.ok.inj hdecode]
    · cases hdecode

/-- A path that is too long is refused before it is followed. -/
theorem wayOf_of_tooLong {p : Path} (h : TooLong p) :
    t.wayOf p = .error .zeroInName ∨ t.wayOf p = .error .nameTooLong := by
  unfold wayOf
  split
  · exact Or.inl rfl
  · rw [if_pos (show p.text.utf8ByteSize > longestPath from h)]
    exact Or.inr rfl

/-- No file stands at what is too long. -/
theorem not_tooLong_of_isFile {p : Path} (h : t.isFile p = true) : ¬ TooLong p := by
  intro hlong
  obtain ⟨way, hway⟩ := exists_way_of_isFile h
  rcases wayOf_of_tooLong (t := t) hlong with hfault | hfault <;> rw [hfault] at hway <;> cases hway

/-- What is too long cannot be read. -/
theorem readText_of_tooLong {p : Path} (h : TooLong p) :
    t.readText p = .error .zeroInName ∨ t.readText p = .error .nameTooLong := by
  rcases wayOf_of_tooLong (t := t) h with hway | hway
  · exact Or.inl (by simp [readText, read, entry, hway, bind, Except.bind])
  · exact Or.inr (by simp [readText, read, entry, hway, bind, Except.bind])

end Files.Tree

end ScriptModules

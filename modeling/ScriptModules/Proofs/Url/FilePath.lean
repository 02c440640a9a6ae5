import ScriptModules.ModuleFormat
import ScriptModules.Proofs.Files.Rooted
import ScriptModules.Proofs.Url.Encoding
import ScriptModules.Url.File

/-!
# The URL of a file

The URL of the path of a file leads back to the file, under its shortest spelling, unless that ends
like a drive. What the URL says about the extension is what the path says.
-/

namespace ScriptModules

open ScriptModules.Path (IsName Leads rooted)

namespace Path

/-- A name without a dot has no extension. -/
theorem extensionOfName?_of_notMem {cs : List Char} (h : '.' ∉ cs) :
    extensionOfName? (String.ofList cs) = none := by
  have hdrop : cs.reverse.dropWhile (· != '.') = [] :=
    List.dropWhile_eq_nil_iff.mpr (ne_of_mem_reverse h)
  simp [extensionOfName?, hdrop]

/-- A name that starts with its last dot has no extension. -/
theorem extensionOfName?_dot {letters : List Char} (h : '.' ∉ letters) :
    extensionOfName? (String.ofList ('.' :: letters)) = none := by
  simp [extensionOfName?, List.dropWhile_append_of_pos (ne_of_mem_reverse h)]

/-- A text is cut in two at its last mark. -/
theorem exists_last_mark {mark : Char} {cs : List Char} (h : mark ∈ cs) :
    ∃ front back, cs = front ++ mark :: back ∧ mark ∉ back := by
  obtain ⟨back, front, hreverse, hback⟩ := List.eq_append_cons_of_mem (List.mem_reverse.mpr h)
  refine ⟨front.reverse, back.reverse, ?_, by simpa using hback⟩
  rw [← List.reverse_reverse cs, hreverse]
  simp

end Path

namespace Url

/-- The percent sign is encoded. -/
theorem isEncodedInName_percent : isEncodedInName '%' = true := by decide

/-- A name as it stands in a URL. -/
def encodeName (name : String) : String := String.ofList (encode isEncodedInName name.toList)

/-- Names that are encoded alike are the same. -/
theorem encodeName_injective {a b : String} (h : encodeName a = encodeName b) : a = b := by
  have hchars := congrArg String.toList h
  rw [encodeName, encodeName, String.toList_ofList, String.toList_ofList] at hchars
  exact String.toList_inj.mp (encode_injective isEncodedInName_percent hchars)

/-- A character that has to be encoded is not left in a name. -/
theorem notMem_encodeName {c : Char} (hc : c ∉ escapes) (henc : isEncodedInName c = true)
    (name : String) : c ∉ (encodeName name).toList := by
  rw [encodeName, String.toList_ofList, mem_encode_iff hc]
  rintro ⟨-, hnot⟩
  rw [henc] at hnot
  cases hnot

/-- The extension of an encoded name is that of the name, encoded. -/
theorem extensionOfName?_encodeName (name : String) :
    Path.extensionOfName? (encodeName name) = (Path.extensionOfName? name).map encodeName := by
  have hdot {cs : List Char} : '.' ∈ encode isEncodedInName cs ↔ '.' ∈ cs := by
    rw [mem_encode_iff (by decide)]
    exact and_iff_left (by decide)
  have hname : name = String.ofList name.toList := String.ofList_toList.symm
  by_cases h : '.' ∈ name.toList
  · obtain ⟨stem, letters, hsplit, hletters⟩ := Path.exists_last_mark h
    have hencoded : encodeName name = String.ofList
        (encode isEncodedInName stem ++ '.' :: encode isEncodedInName letters) := by
      rw [encodeName, hsplit, encode_append, encode_cons, encode_singleton_of_not (by decide)]
      rfl
    have hencodedLetters : '.' ∉ encode isEncodedInName letters := by rwa [hdot]
    rw [hencoded, hname, hsplit]
    by_cases hstem : stem = []
    · subst hstem
      rw [List.nil_append, Path.extensionOfName?_dot hletters]
      exact Path.extensionOfName?_dot hencodedLetters
    · have hencodedStem : encode isEncodedInName stem ≠ [] := by
        intro hnil
        exact hstem (encode_injective isEncodedInName_percent hnil)
      rw [Path.extensionOfName?_append hstem hletters,
        Path.extensionOfName?_append hencodedStem hencodedLetters, Option.map_some, encodeName,
        String.toList_ofList]
  · have hnone : Path.extensionOfName? name = none := by
      rw [hname]
      exact Path.extensionOfName?_of_notMem h
    rw [hnone, encodeName]
    exact Path.extensionOfName?_of_notMem (by rwa [hdot])

/-- A name is still one when it is encoded. -/
theorem isName_encodeName {name : String} (h : IsName name) : IsName (encodeName name) where
  slash := notMem_encodeName (by decide) (by decide) name
  real := by
    have hempty : encodeName name ≠ "" := fun heq => by
      obtain rfl : name = "" := encodeName_injective heq
      exact absurd h.real (by decide)
    have hdot : encodeName name ≠ "." := fun heq => by
      obtain rfl : name = "." := encodeName_injective (heq.trans (by decide))
      exact absurd h.real (by decide)
    simp [Path.isIdle, hempty, hdot]
  up := fun heq => h.up (encodeName_injective (heq.trans (by decide)))

/-- A path that ends in a letter and the mark of a drive. -/
def endsInDrive (p : Path) : Bool :=
  match p.text.toList.reverse with
  | mark :: letter :: _ => letter.isAlpha && (mark == ':' || mark == '|')
  | _ => false

/-- A path that does not end like a drive stays as it is. -/
theorem closeDrive_of_not_endsInDrive {p : Path} (h : endsInDrive p = false) :
    closeDrive p.text = p.text := by
  unfold endsInDrive at h
  unfold closeDrive
  split
  · rename_i hreverse
    simp only [hreverse] at h
    simp [h]
  · rfl

/-- Whether a path ends in a drive is told by its last name. -/
theorem endsInDrive_eq {p : Path} {front : List String} {name : String} (h : Leads p front name) :
    endsInDrive p = endsInDrive ⟨"/" ++ name⟩ := by
  have hne : name.toList.reverse ≠ [] := by
    intro hnil
    obtain rfl : name = "" := by simpa using hnil
    exact absurd h.isName.real (by decide)
  obtain ⟨mark, more, hreverse⟩ := List.exists_cons_of_ne_nil hne
  have hp : p.text.toList.reverse =
      mark :: (more ++ '/' :: (rooted front).text.toList.reverse) := by
    simp [h.text_eq, hreverse]
  have hlast : ("/" ++ name).toList.reverse = mark :: (more ++ ['/']) := by simp [hreverse]
  rw [endsInDrive, endsInDrive, hp, hlast]
  cases more <;> rfl

/-- A part of a path stands encoded in the URL; the steps have nothing to be encoded. -/
theorem segment_eq (part : Path.Part) : part.segment = encodeName part.piece := by
  cases part with
  | name s => rfl
  | _ => decide

/-- The segment of a part is decoded as its piece. -/
theorem decode_segment (part : Path.Part) :
    decode part.segment.toList = Text.utf8 part.piece.toList := by
  have h := decode_encode isEncodedInName_percent part.piece.toList []
  rw [List.append_nil] at h
  rw [segment_eq, encodeName, String.toList_ofList, h]
  simp [decode]

/-- The URL of an absolute path has a segment for each part. -/
theorem ofPath?_eq_some {p : Path} {u : Url} (h : ofPath? p = some u)
    (hparts : p.parts.drop 1 ≠ []) : u.scheme = "file" ∧ u.host? = none ∧
      u.location = .segments ((p.parts.drop 1).map Path.Part.segment) := by
  unfold ofPath? at h
  split at h
  · obtain rfl := Option.some.inj h
    have hnames : ((p.parts.drop 1).map Path.Part.segment).isEmpty = false := by
      rw [List.isEmpty_map, List.isEmpty_eq_false_iff]
      exact hparts
    exact ⟨rfl, rfl, by simp only [hnames]; rfl⟩
  · cases h

variable {p : Path} {u : Url} {front : List String} {name : String}

/-- Behind the root are the parts of the front and the name. -/
theorem drop_parts_eq (h : Leads p front name) :
    p.parts.drop 1 = front.filterMap Path.partOf? ++ [.name name] := by
  rw [h.parts_eq]
  rfl

/-- The URL of an absolute path names the shortest spelling of the path, but for a slash after a
drive. -/
theorem toPath?_eq_closeDrive (hparts : p.parts.drop 1 ≠ []) (hu : ofPath? p = some u) :
    u.toPath? = some ⟨closeDrive (rooted p.steps).text⟩ := by
  obtain ⟨-, hhost, hlocation⟩ := ofPath?_eq_some hu hparts
  have hbytes : ((p.parts.drop 1).map Path.Part.segment).flatMap
      (fun name => Text.utf8 ['/'] ++ decode name.toList) =
        Text.utf8 (rooted p.steps).text.toList := by
    rw [Path.toList_rooted, Text.utf8_flatMap, Path.steps, List.flatMap_map, List.flatMap_map]
    have hpart (part : Path.Part) : Text.utf8 ['/'] ++ decode part.segment.toList =
        Text.utf8 ('/' :: part.piece.toList) := by
      rw [decode_segment]
      simp [Text.utf8]
    rw [funext hpart]
  rw [toPath?, hlocation]
  dsimp only
  rw [if_pos (Or.inl hhost), hbytes, Text.decodeLossy_utf8, String.ofList_toList]

/-- The URL of the path of a file names the shortest spelling of the path. -/
theorem toPath?_ofPath? (h : Leads p front name) (hdrive : endsInDrive p = false)
    (hu : ofPath? p = some u) : u.toPath? = some (rooted p.steps) := by
  have hshortest : endsInDrive (rooted p.steps) = false := by
    rw [endsInDrive_eq h.shortest, ← endsInDrive_eq h, hdrive]
  rw [toPath?_eq_closeDrive (by simp [drop_parts_eq h]) hu, closeDrive_of_not_endsInDrive hshortest]

/-- A slash after a drive is no part of a path. -/
theorem parts_closeDrive {text : String} (h : text ≠ "") :
    Path.parts ⟨closeDrive text⟩ = Path.parts ⟨text⟩ := by
  unfold closeDrive
  split
  · split
    · exact Path.parts_append_slashes h 1
    · rfl
  · rfl

/-- Only a path from the root has a URL. -/
theorem isAbsolute_of_ofPath? (h : ofPath? p = some u) : p.isAbsolute = true := by
  unfold ofPath? at h
  split at h
  · assumption
  · cases h

/-- The URL of a path names a path with the same parts. -/
theorem parts_of_ofPath? {q : Path} (hu : ofPath? p = some u) (hq : u.toPath? = some q) :
    q.parts = p.parts := by
  have habsolute := isAbsolute_of_ofPath? hu
  obtain ⟨rest, hrest⟩ := List.head?_eq_some_iff.mp (Path.isAbsolute_iff.mp habsolute)
  cases rest with
  | nil =>
    rw [ofPath?, if_pos habsolute, hrest] at hu
    obtain rfl := Option.some.inj hu
    have hroot : q = ⟨"/"⟩ := Option.some.inj (hq.symm.trans (by decide +kernel))
    rw [hroot, hrest]
    decide
  | cons part more =>
    have hsteps : p.steps ≠ [] := by simp [Path.steps, hrest]
    have htext : (rooted p.steps).text ≠ "" := by
      obtain ⟨piece, pieces, hpieces⟩ := List.exists_cons_of_ne_nil hsteps
      simp [hpieces, Path.text_rooted_cons]
    rw [toPath?_eq_closeDrive (by simp [hrest]) hu] at hq
    rw [← Option.some.inj hq, parts_closeDrive htext]
    exact Path.parts_rooted_steps habsolute hsteps

/-- The path of a URL has its segments for pieces. -/
theorem path_eq_rooted {names : List String} (h : u.location = .segments names) :
    u.path = (rooted names).text := by
  rw [path, h, UrlPath.text, ← String.toList_inj, Path.toList_rooted]
  simp [List.flatMap_map]

/-- A path without marks is all there is of a location. -/
theorem bare_path {names : List String} (h : u.location = .segments names)
    (hnames : ∀ name ∈ names, ∀ c ∈ name.toList, c ≠ '?' ∧ c ≠ '#') :
    Location.bare u.path = u.path := by
  have hmarks : ∀ c ∈ u.path.toList, (c != '?' && c != '#') = true := by
    rw [path_eq_rooted h, Path.toList_rooted]
    intro c hc
    obtain ⟨name, hname, hc⟩ := List.mem_flatMap.mp hc
    rw [Bool.and_eq_true, bne_iff_ne, bne_iff_ne]
    rcases List.mem_cons.mp hc with rfl | hc
    · decide
    · exact hnames name hname c hc
  rw [Location.bare, List.takeWhile_eq_self_iff.mpr hmarks, String.ofList_toList]

/-- The extension that the URL of a file tells is that of the file, encoded. -/
theorem extension?_path (h : Leads p front name) (hu : ofPath? p = some u) :
    Location.extension? u.path = p.extension?.map encodeName := by
  obtain ⟨-, -, hlocation⟩ := ofPath?_eq_some hu (by simp [drop_parts_eq h])
  have hpath : u.path =
      (rooted ((front.filterMap Path.partOf?).map Path.Part.segment)).text ++ "/" ++
        encodeName name := by
    rw [path_eq_rooted hlocation, drop_parts_eq h, List.map_append, List.map_singleton,
      Path.text_rooted_concat]
    rfl
  have hbare : Location.bare u.path = u.path := by
    refine bare_path hlocation fun segment hsegment c hc => ?_
    obtain ⟨part, -, rfl⟩ := List.mem_map.mp hsegment
    rw [segment_eq] at hc
    exact ⟨ne_of_mem_of_not_mem hc (notMem_encodeName (by decide) (by decide) _),
      ne_of_mem_of_not_mem hc (notMem_encodeName (by decide) (by decide) _)⟩
  rw [Location.extension?, hbare, hpath, Path.extension?, Path.extension?,
    Path.fileName?_append (isName_encodeName h.isName), h.fileName?_eq, Option.bind_some,
    Option.bind_some]
  exact extensionOfName?_encodeName name

end Url

end ScriptModules

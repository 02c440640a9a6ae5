import ScriptModules.Proofs.Resolve.Candidates

/-!
# Which file a relative name in a source stands for

A name without an extension stands for a source before what is compiled from it, and for that before
a document; the index of a directory comes before the files next to it. That order is not written
anywhere: each extension that is tried has its sources tried first, and what comes again has been
tried before.
-/

namespace ScriptModules.Resolve.Search

open Package.Cache (ManifestsRead)
open Url (IsExtension LastName Relative)

variable {σ : Type} {s : Session} {c : Context} {parent : Url} {base : Path}
  {x specifier : String}

/-- A name that asks for no directory is asked of the host first. -/
theorem resolveWithin_allowed (hx : Relative x) (hcompiled : Specifier.sourceAlternates x = [])
    (next : Resolver σ) (depth : Nat) : resolveWithin s next c (depth + 1) x .allowed =
      askOr s next x c (recover (resolveWithin s next c depth) x c .allowed) := by
  have hfront := hasPathFront_of_relative hx
  have hsource : prioritySources x c = [] := by
    rw [prioritySources, hcompiled]
    exact ite_self _
  rw [resolveWithin, attempt_eq]
  dsimp only
  rw [Specifier.withoutNodePrefix_of_hasPathFront hfront, isDirectory_of_relative hx,
    if_neg Bool.false_ne_true, mappedUrls_eq_nil hfront, firstOr, searchUnmapped, hsource, firstOr]

/-- From a local file, a name that is not itself that of a file is looked for among its
candidates. -/
theorem finds_resolve (h : FromSource s c parent) (hbase : parent.toPath? = some base)
    (hx : Relative x) (hcompiled : Specifier.sourceAlternates x = [])
    (hno : isFileFrom s.files parent x = false) :
    Finds s c parent (fun _ => true) (resolve s (Host.resolve s) x c : Step σ Target)
      (candidates x (isDirectoryFrom s.files parent x)) := by
  have hwithin : Finds s c parent (fun _ => true)
      (resolveWithin s (Host.resolve s) c depthLimit x .allowed : Step σ Target)
      (candidates x (isDirectoryFrom s.files parent x)) := by
    intro st
    rw [depthLimit, resolveWithin_allowed hx hcompiled, run_askOr,
      host_of_no_file h.importer h.scheme hbase hx hno]
    cases isDirectoryFrom s.files parent x with
    | false => exact (finds_probeExtensions h hbase hx 3).mono (fun _ _ => rfl) st
    | true =>
      refine Finds.catch_throw (finds_probeDirectory h hbase hx 3) (fun g => ?_) st
      rfl
  exact hwithin.catch_throw fun _ => rfl

/-- Where a file stands for a candidate, resolving does as asking the host for the first one. -/
theorem resolve_eq_askOr (h : FromSource s c parent) (hbase : parent.toPath? = some base)
    (hspecifier : Relative specifier) (hcompiled : Specifier.sourceAlternates specifier = [])
    (hno : isFileFrom s.files parent specifier = false)
    (hfind : (candidates specifier (isDirectoryFrom s.files parent specifier)).find?
      (isFileFrom s.files parent) = some x) (st : State σ) :
    resolve s (Host.resolve s) specifier c st = askOr s (Host.resolve s) x c throw st := by
  have hst := finds_resolve h hbase hspecifier hcompiled hno st
  rw [hfind] at hst
  exact hst.1

/-- A candidate is a relative name with an extension. -/
theorem exists_of_mem_candidates (hx : Relative x) {directory : Bool} {y : String}
    (hy : y ∈ candidates x directory) :
    ∃ z e letters, Relative z ∧ IsExtension e letters ∧ y = z ++ e := by
  have hprecedence {x : String} (hx : Relative x) (hy : y ∈ precedence x) :
      ∃ z e letters, Relative z ∧ IsExtension e letters ∧ y = z ++ e := by
    obtain ⟨e, he, rfl⟩ := List.mem_map.mp hy
    have hall : ∀ e ∈ [".ts", ".tsx", ".js", ".json", ".jsx"], e ∈ extensions := by decide
    obtain ⟨letters, hletters⟩ := exists_isExtension (hall e he)
    exact ⟨x, e, letters, hx, hletters, rfl⟩
  unfold candidates at hy
  split at hy
  · exact (List.mem_append.mp hy).elim (hprecedence (relative_index hx)) (hprecedence hx)
  · exact hprecedence hx hy

/-- From what is no local file, nothing is resolved. -/
theorem resolve_of_not_local (h : FromSource s c parent) (hbase : parent.toPath? = none)
    (hx : Relative x) (hcompiled : Specifier.sourceAlternates x = []) (st : State σ) :
    ∃ f, (resolve s (Host.resolve s) x c st).1 = .error f := by
  have hhost : ∃ reason, Host.resolve s x c st = (.error (.invalidSpecifier x reason), st) := by
    have hnone := hx.fileFrom?_eq_none h.scheme hbase
    rw [host_resolve_relative h.importer hx]
    cases hu : parent.join x with
    | error f => exact ⟨f.text, rfl⟩
    | ok u =>
      rw [fileFrom?_eq hu] at hnone
      dsimp only
      rw [Host.resolveFile, hnone]
      exact ⟨_, rfl⟩
  obtain ⟨reason, hhost⟩ := hhost
  rw [run_resolve, depthLimit, resolveWithin_allowed hx hcompiled, run_askOr, hhost]
  exact ⟨_, rfl⟩

/-- A relative name in a source, that is not itself that of a file and has no compiled extension,
is resolved to the first of its candidates where there is a file, and not resolved where there is
none. The one failure besides is that of a type that cannot be told, since a manifest above the file
has too long a path. -/
theorem resolve_source_precedence (h : FromSource s c parent) (hspecifier : Relative specifier)
    (hcompiled : Specifier.sourceAlternates specifier = [])
    (hno : isFileFrom s.files parent specifier = false) (st : State σ) :
    match (candidates specifier (isDirectoryFrom s.files parent specifier)).find?
        (isFileFrom s.files parent) with
    | some x => Reaches parent x (resolve s (Host.resolve s) specifier c st).1
    | none => ∃ f, (resolve s (Host.resolve s) specifier c st).1 = .error f := by
  cases hbase : parent.toPath? with
  | none =>
    have hnone : (candidates specifier (isDirectoryFrom s.files parent specifier)).find?
        (isFileFrom s.files parent) = none := by
      rw [List.find?_eq_none]
      intro x hx
      obtain ⟨z, e, letters, hz, he, rfl⟩ := exists_of_mem_candidates hspecifier hx
      rw [isFileFrom, (hz.append_extension he).fileFrom?_eq_none h.scheme hbase]
      exact Bool.false_ne_true
    rw [hnone]
    exact resolve_of_not_local h hbase hspecifier hcompiled st
  | some base =>
    cases hfind : (candidates specifier (isDirectoryFrom s.files parent specifier)).find?
        (isFileFrom s.files parent) with
    | some x =>
      obtain ⟨z, e, letters, hz, he, rfl⟩ :=
        exists_of_mem_candidates hspecifier (List.mem_of_find?_eq_some hfind)
      dsimp only
      rw [resolve_eq_askOr h hbase hspecifier hcompiled hno hfind]
      exact reaches_askOr h.manifests h.importer h.scheme hbase hz he
        (List.find?_some hfind) (fun _ => rfl) st
    | none =>
      have hst := finds_resolve h hbase hspecifier hcompiled hno st
      rw [hfind] at hst
      obtain ⟨f, hf, -⟩ := hst
      exact ⟨f, by rw [hf]⟩

/-- A directory that holds one compiled file, inside another directory. -/
def oneFile : Files.Tree :=
  ⟨[(["d"], .directory), (["d", "e"], .directory), (["d", "e", "b.js"], .file [])]⟩

/-- A session without projects in that tree. -/
def inOneFile : Session := ⟨⟨"/"⟩, {}, {}, oneFile⟩

/-- A source next to the file, with a number of slashes more between the directories. -/
def spelled (n : Nat) : Url where
  scheme := "file"
  authority := some {}
  location := .segments ("d" :: List.replicate n "" ++ ["e", "a.ts"])

/-- Imports of that source. -/
def fromSpelled (n : Nat) : Context := { parent := some (spelled n) }

/-- A file next to the source, under the same spelling. -/
def spelledFile (n : Nat) (name : List Char) : Path :=
  ⟨"/d" ++ Path.slashes n ++ "/" ++ "e" ++ "/" ++ String.ofList name⟩

/-- In the tree there are a root, two directories and the file. -/
theorem at?_oneFile {way : List String} {e : Files.Entry} (h : oneFile.at? way = some e) :
    way = [] ∨ way = ["d"] ∨ way = ["d", "e"] ∨ way = ["d", "e", "b.js"] ∧ e = .file [] := by
  unfold Files.Tree.at? at h
  split at h
  · exact Or.inl (List.isEmpty_iff.mp ‹_›)
  · simp only [oneFile, List.lookup_cons] at h
    repeat' split at h
    all_goals simp_all

/-- In the tree there is no manifest to be read. -/
theorem manifestsRead_oneFile : ManifestsRead oneFile := by
  refine Package.Cache.manifestsRead_of_at? fun way e hat => ?_
  rcases at?_oneFile hat with rfl | rfl | rfl | ⟨rfl, -⟩ <;> decide

/-- In the tree no directory is named like a source. -/
theorem noCodeDirectories_oneFile : NoCodeDirectories oneFile := by
  refine noCodeDirectories_of_at? fun way hat name hname => ?_
  rcases at?_oneFile hat with rfl | rfl | rfl | ⟨-, hfile⟩
  · simp at hname
  · obtain rfl : "d" = name := Option.some.inj hname
    decide
  · obtain rfl : "e" = name := Option.some.inj hname
    decide
  · cases hfile

/-- All names on the way are plain. -/
theorem plain_of_mem_spelled {n : Nat} {name : String}
    (h : name ∈ "d" :: (List.replicate n "" ++ ["e"])) :
    ∀ c ∈ name.toList, Url.isPlain c = true := by
  rcases List.mem_cons.mp h with rfl | h
  · exact List.all_eq_true.mp (by decide)
  · rcases List.mem_append.mp h with h | h
    · rw [List.eq_of_mem_replicate h]
      simp
    · rw [List.mem_singleton.mp h]
      exact List.all_eq_true.mp (by decide)

/-- The names on the way are written with all their slashes. -/
theorem flatMap_spelled (n : Nat) :
    ("d" :: (List.replicate n "" ++ ["e"])).flatMap (fun segment => '/' :: segment.toList) =
      ("/d" ++ Path.slashes n ++ "/" ++ "e").toList := by
  have hslashes : (List.replicate n "").flatMap (fun segment => '/' :: segment.toList) =
      List.replicate n '/' := by
    induction n with
    | zero => rfl
    | succ n ih =>
      rw [List.replicate_succ, List.flatMap_cons, ih]
      rfl
  rw [List.flatMap_cons, List.flatMap_append, hslashes]
  simp [Path.slashes]

/-- The module that imports is a source, however it is spelled. -/
theorem isSource_spelled (n : Nat) : Location.isSource (spelled n).path = true := by
  have hpath : (spelled n).path.toList =
      ("/d" ++ Path.slashes n ++ "/" ++ "e").toList ++ "/a.ts".toList := by
    have hjoin (names : List String) : (Url.UrlPath.segments names).text.toList =
        names.flatMap fun segment => '/' :: segment.toList := by
      rw [Url.UrlPath.text, String.toList_join, List.flatMap_map]
      simp
    have hconcat : "d" :: List.replicate n "" ++ ["e", "a.ts"] =
        "d" :: (List.replicate n "" ++ ["e"]) ++ ["a.ts"] := by simp
    rw [← flatMap_spelled, spelled, Url.path, hjoin, hconcat, List.flatMap_append]
    rfl
  have hbare : Location.bare (spelled n).path = (spelled n).path := by
    rw [Location.bare, List.takeWhile_eq_self_iff.mpr, String.ofList_toList]
    intro c hc
    have hplain : ∀ c ∈ "/dea.ts".toList, (c != '?' && c != '#') = true :=
      List.all_eq_true.mp (by decide)
    rw [hpath] at hc
    refine hplain c ?_
    simp [Path.slashes] at hc ⊢
    grind
  rw [Location.isSource, hbare, List.any_eq_true]
  refine ⟨".ts", by simp [Location.sourceEndings], ?_⟩
  rw [List.isSuffixOf_iff_suffix, hpath]
  exact List.suffix_append_of_suffix ⟨"/a".toList, rfl⟩

/-- The search starts from a source. -/
theorem fromSource_spelled (n : Nat) :
    FromSource inOneFile (fromSpelled n) (spelled n) where
  manifests := manifestsRead_oneFile
  directories := noCodeDirectories_oneFile
  importer := rfl
  scheme := rfl
  source := isSource_spelled n

/-- The names on the way need no decoding. -/
theorem decodeSegments_spelled (n : Nat) :
    Url.decodeSegments ("d" :: (List.replicate n "" ++ ["e"])) =
      "/d" ++ Path.slashes n ++ "/" ++ "e" := by
  rw [Url.decodeSegments_plain fun name hname => plain_of_mem_spelled hname, flatMap_spelled,
    String.ofList_toList]

/-- Names next to the module stand for files under its spelling. -/
theorem exists_join_spelled (n : Nat) {name : List Char} (h : LastName name) :
    ∃ u, (spelled n).join (Url.beside name) = .ok u ∧ u.toPath? = some (spelledFile n name) := by
  have hdrop : Url.dropSegment .file ("d" :: List.replicate n "" ++ ["e", "a.ts"]) =
      "d" :: (List.replicate n "" ++ ["e"]) := by
    have hconcat : "d" :: List.replicate n "" ++ ["e", "a.ts"] =
        "d" :: (List.replicate n "" ++ ["e"]) ++ ["a.ts"] := by simp
    rw [hconcat, Url.dropSegment, List.getLast?_concat, List.dropLast_concat, if_neg]
    decide
  let u : Url := { spelled n with
    location := .segments ("d" :: (List.replicate n "" ++ ["e"]) ++ [String.ofList name]) }
  refine ⟨u, ?_, ?_⟩
  · rw [h.relative_beside.join_eq rfl]
    dsimp only [spelled]
    rw [hdrop, h.extend_beside (by decide)]
    rfl
  · rw [h.toPath?_eq (Or.inl rfl) rfl, decodeSegments_spelled]
    rfl

/-- However many slashes there are, the parts of the path are the same. -/
theorem parts_spelled (n : Nat) {name : List Char} (h : LastName name) :
    (spelledFile n name).parts = [.root, .name "d", .name "e", .name (String.ofList name)] := by
  have hd : ("/d" ++ Path.slashes n : String) ≠ "" := by simp
  have he : Path.IsName "e" := ⟨by decide, by decide, by decide⟩
  rw [spelledFile, Path.parts_append h.isName (by simp), Path.parts_append he hd,
    Path.parts_append_slashes (by decide)]
  rfl

/-- What stands at a path that is short enough. -/
theorem entry_spelledFile {n : Nat} {name : List Char} (h : LastName name)
    (hshort : n + 5 + (String.ofList name).utf8ByteSize ≤ 4095)
    (hsize : (String.ofList name).utf8ByteSize ≤ 255) :
    oneFile.entry (spelledFile n name) =
      match oneFile.at? ["d", "e", String.ofList name] with
      | some e => .ok e
      | none => .error .notFound := by
  have hparts := parts_spelled n h
  have habsolute : (spelledFile n name).isAbsolute = true := by
    rw [Path.isAbsolute_iff, hparts]
    rfl
  have hends : Path.EndsInName (spelledFile n name) := Path.endsInName_append h.isName
  have hzero : ¬ (spelledFile n name).text.toList.contains '\x00' = true := by
    have hname : '\x00' ∉ name := by
      intro hmem
      exact absurd (Url.unmarked_of_isPlain (h.plain _ hmem)).visible (by decide)
    rw [List.contains_iff_mem, Path.mem_text_iff (by decide) (by decide), hparts]
    simpa [Path.Part.piece] using hname
  have hlength : ¬ (spelledFile n name).text.utf8ByteSize > Files.Tree.longestPath := by
    have htext : (spelledFile n name).text.utf8ByteSize =
        n + 5 + (String.ofList name).utf8ByteSize := by
      simp only [spelledFile, String.utf8ByteSize_append, Path.utf8ByteSize_slashes]
      rw [show "/d".utf8ByteSize = 2 from rfl, show "/".utf8ByteSize = 1 from rfl,
        show "e".utf8ByteSize = 1 from rfl]
      omega
    rw [htext, Files.Tree.longestPath]
    omega
  have hway : oneFile.wayOf (spelledFile n name) = .ok ["d", "e", String.ofList name] := by
    rw [Files.Tree.wayOf, if_neg hzero, if_neg hlength, if_pos habsolute,
      Files.Tree.follow_pieces habsolute hends, Path.steps, hparts]
    change oneFile.follow [] ["d", "e", String.ofList name] = _
    rw [Files.Tree.follow_cons_name rfl rfl, if_neg (by decide),
      Files.Tree.follow_cons_name rfl rfl, if_neg (by decide),
      Files.Tree.follow_cons_name rfl h.isName.partOf?,
      if_neg (by rw [Files.Tree.longestName]; omega)]
    rfl
  exact Files.Tree.entry_of_wayOf hway

/-- The names that a module `b` is looked for by, which are short. -/
theorem lastName_of_mem {name : String} (h : name ∈ ["b", "b.ts", "b.tsx", "b.js"]) :
    LastName name.toList ∧ name.utf8ByteSize ≤ 5 := by
  simp only [List.mem_cons, List.not_mem_nil, or_false] at h
  rcases h with rfl | rfl | rfl | rfl
  all_goals exact ⟨⟨List.all_eq_true.mp (by decide), by decide, _, rfl, by decide⟩, by decide⟩

/-- Of all names that are looked for, the compiled one alone is a file, as long as the path is short
enough. -/
theorem stands_spelled {n : Nat} (hn : n ≤ 4085) {name : String}
    (h : name ∈ ["b", "b.ts", "b.tsx", "b.js"]) :
    isFileFrom oneFile (spelled n) (Url.beside name.toList) = (name == "b.js") ∧
      isDirectoryFrom oneFile (spelled n) (Url.beside name.toList) = false := by
  obtain ⟨hname, hsize⟩ := lastName_of_mem h
  have hentry : oneFile.entry (spelledFile n name.toList) =
      match oneFile.at? ["d", "e", name] with
      | some e => .ok e
      | none => .error .notFound := by
    simpa only [String.ofList_toList] using entry_spelledFile (n := n) hname
      (by rw [String.ofList_toList]; omega) (by rw [String.ofList_toList]; omega)
  obtain ⟨u, hu, hpath⟩ := exists_join_spelled n hname
  rw [isFileFrom, isDirectoryFrom, fileFrom?_eq hu, hpath, Option.any_some, Option.any_some,
    Files.Tree.isFile, Files.Tree.isDirectory, hentry]
  simp only [List.mem_cons, List.not_mem_nil, or_false] at h
  rcases h with rfl | rfl | rfl | rfl <;> decide

/-- The compiled file is what is found. -/
theorem find?_spelled {n : Nat} (hn : n ≤ 4085) :
    isFileFrom oneFile (spelled n) "./b" = false ∧
      (candidates "./b" (isDirectoryFrom oneFile (spelled n) "./b")).find?
        (isFileFrom oneFile (spelled n)) = some "./b.js" := by
  have hstands (name : String) (h : name ∈ ["b", "b.ts", "b.tsx", "b.js"]) :=
    stands_spelled hn h
  have hb : isFileFrom oneFile (spelled n) "./b" = false := (hstands "b" (by simp)).1
  have hdirectory : isDirectoryFrom oneFile (spelled n) "./b" = false := (hstands "b" (by simp)).2
  have hts : isFileFrom oneFile (spelled n) "./b.ts" = false := (hstands "b.ts" (by simp)).1
  have htsx : isFileFrom oneFile (spelled n) "./b.tsx" = false := (hstands "b.tsx" (by simp)).1
  have hjs : isFileFrom oneFile (spelled n) "./b.js" = true := (hstands "b.js" (by simp)).1
  have hcandidates : candidates "./b" false =
      ["./b.ts", "./b.tsx", "./b.js", "./b.json", "./b.jsx"] := by
    decide
  refine ⟨hb, ?_⟩
  rw [hdirectory, hcandidates, List.find?_cons_of_neg (by simp [hts]),
    List.find?_cons_of_neg (by simp [htsx]), List.find?_cons_of_pos hjs]

/-- The name that is imported is relative. -/
theorem relative_b : Relative "./b" := (lastName_of_mem (by simp : "b" ∈ _)).1.relative_beside

/-- The name that is imported has no forms of a source. -/
theorem sourceAlternates_b : Specifier.sourceAlternates "./b" = [] := by decide

/-- The compiled file is resolved under its plain spelling. -/
theorem resolve_source_precedence_compiled :
    (FromSource inOneFile (fromSpelled 0) (spelled 0) ∧ Relative "./b" ∧
      Specifier.sourceAlternates "./b" = [] ∧ isFileFrom oneFile (spelled 0) "./b" = false) ∧
    Reaches (spelled 0) "./b.js" (resolve inOneFile (Host.resolve inOneFile) "./b" (fromSpelled 0)
      (⟨{}, ()⟩ : State Unit)).1 := by
  obtain ⟨hno, hfind⟩ := find?_spelled (n := 0) (by omega)
  have hreaches := resolve_source_precedence (fromSource_spelled 0) relative_b sourceAlternates_b
    hno (⟨{}, ()⟩ : State Unit)
  simp only [inOneFile] at hreaches hfind ⊢
  rw [hfind] at hreaches
  exact ⟨⟨fromSource_spelled 0, relative_b, sourceAlternates_b, hno⟩, hreaches⟩

/-- The name of the inner directory is one piece. -/
theorem isName_e : Path.IsName "e" := ⟨by decide, by decide, by decide⟩

/-- The type of the package around the file cannot be told if there is no room for the name of a
manifest. -/
theorem exists_packageType_spelled {n : Nat} (hlong : 4079 ≤ n) {name : List Char}
    (h : LastName name) :
    ∃ f, Package.Cache.packageType oneFile {} (spelledFile n name) = (.error f, {}) := by
  let dir : Path := ⟨"/d" ++ Path.slashes n ++ "/" ++ "e"⟩
  have hparent : (spelledFile n name).parent? = some dir :=
    Path.parent?_append h.isName (Path.endsInName_append isName_e)
  have hfileName : dir.fileName? = some "e" := Path.fileName?_append isName_e
  have htext : (dir.join "package.json").text = dir.text ++ "/" ++ "package.json" := by
    have hempty : dir.text ≠ "" := by simp [dir]
    have hlast : dir.text.toList.getLast? ≠ some '/' := by
      simp only [dir, String.toList_append, List.getLast?_append]
      rw [show "e".toList.getLast? = some 'e' from rfl]
      simp
    rw [Path.join_name Package.Cache.isName_manifest, if_neg hempty, if_neg hlast]
  refine Package.Cache.exists_packageType_eq_of_tooLong hparent ?_ ?_
  · rw [hfileName]
    decide
  · rw [Files.Tree.TooLong, htext]
    simp only [dir, String.utf8ByteSize_append, Path.utf8ByteSize_slashes]
    rw [show "/d".utf8ByteSize = 2 from rfl, show "/".utf8ByteSize = 1 from rfl,
      show "e".utf8ByteSize = 1 from rfl, show "package.json".utf8ByteSize = 12 from rfl,
      Files.Tree.longestPath]
    omega

/-- With just so many slashes the search fails: a manifest beside the file has too long a path. -/
theorem exists_resolve_spelled {n : Nat} (hlong : 4079 ≤ n) (hn : n ≤ 4085) :
    ∃ f, (resolve inOneFile (Host.resolve inOneFile) "./b" (fromSpelled n)
      (⟨{}, ()⟩ : State Unit)).1 = .error f := by
  obtain ⟨hno, hfind⟩ := find?_spelled hn
  have hname : LastName "b.js".toList := (lastName_of_mem (by simp)).1
  have hbeside : Url.beside "b.js".toList = "./b.js" := by decide
  obtain ⟨u, hu, hpath⟩ := exists_join_spelled n hname
  have hstands : oneFile.isFile (spelledFile n "b.js".toList) = true := by
    have hjs := (stands_spelled hn (by simp : "b.js" ∈ _)).1
    rwa [isFileFrom, fileFrom?_eq hu, hpath] at hjs
  have hextension : (spelledFile n "b.js".toList).extension? = some "js" := by
    rw [Path.extension?, spelledFile, Path.fileName?_append hname.isName]
    decide
  obtain ⟨f, htype⟩ := exists_packageType_spelled hlong hname
  have hbase := Url.toPath?_of_segments (u := spelled n) (Or.inl rfl) rfl
  have hask := resolve_eq_askOr (fromSource_spelled n) hbase relative_b sourceAlternates_b hno hfind
    (⟨{}, ()⟩ : State Unit)
  have hfile : (Host.resolve inOneFile (Url.beside "b.js".toList) (fromSpelled n) :
      Step Unit Target) =
      (fun format? => ⟨u, format?⟩) <$> Host.formatOf inOneFile (spelledFile n "b.js".toList) :=
    host_of_file (fromSource_spelled n).importer hname.relative_beside hu hpath hstands
  have hformat : (Host.formatOf inOneFile (spelledFile n "b.js".toList) : Step Unit _)
      ⟨{}, ()⟩ = (.error (.config f), ⟨{}, ()⟩) := by
    have hask : Package.Cache.packageType inOneFile.files {} (spelledFile n "b.js".toList) =
        (.error f, {}) := htype
    rw [formatOf_js hextension, run_map, run_askPackages]
    dsimp only
    rw [hask]
    rfl
  refine ⟨.config f, ?_⟩
  rw [hask, run_askOr, ← hbeside, hfile, run_map, hformat]
  rfl

/-- Under a spelling that leaves no room for the name of a manifest, the compiled file is found but
not resolved. -/
theorem not_forall_resolve_found :
    ¬ ∀ (s : Session) (c : Context) (parent : Url) (specifier : String) (st : State Unit),
      FromSource s c parent → Relative specifier → Specifier.sourceAlternates specifier = [] →
      isFileFrom s.files parent specifier = false →
      ∀ x, (candidates specifier (isDirectoryFrom s.files parent specifier)).find?
        (isFileFrom s.files parent) = some x →
      ∃ u format, parent.join x = .ok u ∧
        (resolve s (Host.resolve s) specifier c st).1 = .ok ⟨u, some format⟩ := by
  intro h
  obtain ⟨hno, hfind⟩ := find?_spelled (n := 4085) (by omega)
  obtain ⟨u, format, -, hok⟩ := h inOneFile (fromSpelled 4085) (spelled 4085) "./b" ⟨{}, ()⟩
    (fromSource_spelled 4085) relative_b sourceAlternates_b hno "./b.js" hfind
  obtain ⟨f, herror⟩ := exists_resolve_spelled (n := 4085) (by omega) (by omega)
  rw [herror] at hok
  cases hok

end ScriptModules.Resolve.Search

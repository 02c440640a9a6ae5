import ScriptModules.Proofs.Load.Lines
import ScriptModules.Proofs.SourceMap.RoundTrip
import ScriptModules.Proofs.Text.Base64

/-!
# Maps inside the code

For hosts that read it there, the map of what was made of a source stands in a comment behind the
code. Whatever is made of a source has a map that its document tells completely, so what such a
host reads is the map that is registered.
-/

namespace ScriptModules

namespace SourceMap

/-- A map that its document tells completely: it has a line, its segments are in order, and there
is a content, known or not, for each source. -/
structure Told (m : SourceMap) : Prop where
  ordered : m.Ordered
  hasLine : m.lines ≠ []
  hasContents : m.contents.length = m.sources.length

/-- A map is told whatever file it is for. -/
theorem Told.withFile {m : SourceMap} (h : m.Told) (file : Option String) :
    Told { m with file := file } :=
  ⟨h.ordered, h.hasLine, h.hasContents⟩

/-- A map of lines in order is told. -/
theorem told_ofLines {lines : List (List Segment)} (hne : lines ≠ [])
    (h : ∀ line ∈ lines, Sorted line) (path content : String) : (ofLines path content lines).Told :=
  ⟨h, hne, rfl⟩

/-- Every text has a line. -/
theorem lines_ne_nil (cs : List Char) : Text.lines cs ≠ [] := Text.splitAt_ne_nil _ _

/-- The lines of a map that are made from the numbers of the lines of a text. -/
theorem told_ofLines_map {segmentsOf : Nat → List Segment} (h : ∀ line, Sorted (segmentsOf line))
    (path content : String) (cs : List Char) :
    (ofLines path content ((List.range (Text.lines cs).length).map segmentsOf)).Told := by
  refine told_ofLines ?_ (fun line hline => ?_) path content
  · simp [lines_ne_nil]
  · obtain ⟨k, -, rfl⟩ := List.mem_map.mp hline
    exact h k

/-- The map of an unchanged text is told. -/
theorem told_identity (path content : String) : (identity path content).Told :=
  told_ofLines_map (fun _ => List.pairwise_singleton _ _) path content _

/-- What a host reads in the comment of a map that is told completely is the map. -/
theorem Told.read_comment {m : SourceMap} (h : m.Told) : ∃ digits,
    m.toComment = "//# sourceMappingURL=data:application/json;base64," ++ digits ∧
      '\n' ∉ digits.toList ∧
      ((Text.Base64.decode? digits.toList).bind Text.decode?).map ofJson = some (.ok m) := by
  have hopening : "//# sourceMappingURL=" ++ "data:application/json;base64," =
      "//# sourceMappingURL=data:application/json;base64," := by decide
  have hcomment (digits : String) :
      "//# sourceMappingURL=" ++ ("data:application/json;base64," ++ digits) =
        "//# sourceMappingURL=data:application/json;base64," ++ digits := by
    rw [← String.append_assoc]
    exact congrArg (· ++ digits) hopening
  refine ⟨Text.Base64.encodeText m.toJson, hcomment _,
    Text.Base64.newline_notMem_encodeText _, ?_⟩
  rw [Text.Base64.decode?_encodeText, Option.map_some,
    ofJson_toJson_of_ordered h.ordered h.hasLine h.hasContents]

end SourceMap

open SourceMap

/-- The map of a document that is made a module is told. -/
theorem JsonModule.told_mapOf (path source : String) (body : List Char) :
    (mapOf path source body).Told := by
  refine told_ofLines_map (fun line => ?_) path source body
  split
  · simp [Sorted]
  · exact List.pairwise_singleton _ _

namespace DynamicImport

/-- The segments of a line are in the order of its columns. -/
theorem sorted_segmentsOf (line : Nat) (columns : List Nat) : Sorted (segmentsOf line columns) :=
  List.foldlRecOn _ _ (List.pairwise_singleton _ _) fun _ hsegments _ _ =>
    hsegments.insertSegment _

/-- The segments of every line of a rewritten module are in order. -/
theorem sorted_of_mem_segmentLines {line start : Nat} {ends : List Nat} {texts : List (List Char)}
    {segments : List Segment} (h : segments ∈ segmentLines line start ends texts) :
    Sorted segments := by
  induction texts generalizing line start ends with
  | nil => cases h
  | cons text rest ih =>
    rcases List.mem_cons.mp h with rfl | h
    · exact sorted_segmentsOf _ _
    · exact ih h

/-- The map of a rewritten module is told. -/
theorem told_rewrite? {code : String} {path : Path} {dialect : Grammar.Dialect}
    {t : Transformed} (h : rewrite? code path dialect = some t) : t.map.Told := by
  unfold rewrite? at h
  split at h
  · cases h
  · split at h
    · cases h
    · obtain rfl := Option.some.inj h
      refine told_ofLines ?_ (fun _ => sorted_of_mem_segmentLines) _ _
      rw [← List.length_pos_iff, length_segmentLines, List.length_pos_iff]
      exact lines_ne_nil _

end DynamicImport

namespace Load

variable {σ : Type} {s : Session} {next : Loader σ} {url : Url} {made : Made}

/-- Whatever is made of a source has a map that its document tells completely. -/
theorem MadeBy.told (h : MadeBy s url made) : ∃ map, made.product.map? = some map ∧ map.Told := by
  cases h with
  | document ht =>
    refine ⟨_, rfl, ?_⟩
    rw [JsonModule.map_of_transform ht]
    exact JsonModule.told_mapOf _ _ _
  | types ht =>
    refine ⟨_, rfl, ?_⟩
    rw [map_of_stripTypes ht]
    exact told_identity _ _
  | imports ht => exact ⟨_, rfl, DynamicImport.told_rewrite? ht⟩

/-- The text that a call gives. -/
def Returned.text? : Returned → Option String
  | loaded l => l.source.bind Text.decode?
  | source code => some code

/-- What was made of a loaded source is given as its code. -/
theorem source_of_preparedLoaded {setup : Setup} {loaded result : Loaded}
    (h : preparedLoaded setup url loaded = .ok (result, some made)) :
    result.source = some (Text.utf8 (made.product.codeFor setup.session url).toList) := by
  unfold preparedLoaded at h
  split at h
  · cases h
  · split at h
    · cases h
    · obtain ⟨made?, -, hresult⟩ := exists_of_map_eq_ok h
      obtain ⟨hloaded, hmade⟩ := Prod.mk.inj hresult
      rw [← hloaded, hmade]
      rfl

/-- What was made of a source that was read is given as its code. -/
theorem code_of_preparedSource {setup : Setup} {source code : String} {format : ModuleFormat}
    (h : preparedSource setup url source format = .ok (code, some made)) :
    code = made.product.codeFor setup.session url := by
  unfold preparedSource at h
  obtain ⟨made?, -, hresult⟩ := exists_of_map_eq_ok h
  obtain ⟨hcode, hmade⟩ := Prod.mk.inj hresult
  rw [← hcode, hmade]
  rfl

/-- The text that a call gives is the code of what it made. -/
theorem Call.text?_of_outcome {setup : Setup} {call : Call} {st : State σ} {returned : Returned}
    (h : (call.outcome setup next st).1 = .ok (returned, some made)) :
    returned.text? = some (made.product.codeFor setup.session call.url) := by
  cases call with
  | load url c =>
    rw [outcome] at h
    split at h
    · dsimp only at h
      obtain ⟨⟨result, made?⟩, hloaded, hresult⟩ := exists_of_map_eq_ok h
      obtain ⟨hreturned, hmade⟩ := Prod.mk.inj hresult
      rw [id_eq] at hmade
      rw [hmade] at hloaded
      have hsource := source_of_preparedLoaded hloaded
      rw [← hreturned, Returned.text?, hsource, Option.bind_some]
      exact Text.decode?_eq_some_iff.mpr rfl
    · cases h
  | prepare source url format =>
    rw [outcome] at h
    dsimp only at h
    obtain ⟨⟨code, made?⟩, hsource, hresult⟩ := exists_of_map_eq_ok h
    obtain ⟨hreturned, hmade⟩ := Prod.mk.inj hresult
    rw [id_eq] at hmade
    rw [hmade] at hsource
    rw [← hreturned, Returned.text?]
    exact congrArg some (code_of_preparedSource hsource)

/-- Where the host reads maps in the code, a call that makes something of a source gives its code
with one more line. What is read there is the map that is registered, and it is the map of the
module that was asked for. -/
theorem run_inlines_map (hs : s.capabilities.inlineSourceMaps = true) (next : Loader σ)
    (call : Call) (st : State σ) {returned : Returned}
    (h : (call.outcome { session := s } next st).1 = .ok (returned, some made)) :
    (call.run { session := s } next st).1 = .ok returned ∧ ∃ digits map,
      returned.text? = some
        ((if Text.endsWith "\n" made.product.code then made.product.code
            else made.product.code ++ "\n") ++
          ("//# sourceMappingURL=data:application/json;base64," ++ digits)) ∧
      '\n' ∉ digits.toList ∧
      ((Text.Base64.decode? digits.toList).bind Text.decode?).map SourceMap.ofJson =
        some (.ok map) ∧
      map.file = some call.url.text ∧
      (call.run { session := s } next st).2.maps.get? call.url.text = some map := by
  obtain ⟨map, hmap, htold⟩ := (Call.isMade_of_outcome h).madeBy.told
  obtain ⟨digits, hcomment, hline, hread⟩ := (htold.withFile (some call.url.text)).read_comment
  have hmapFor : made.product.mapFor? call.url = some { map with file := some call.url.text } := by
    rw [Product.mapFor?, hmap, Option.map_some]
  have hcode : made.product.codeFor s call.url =
      withMapComment made.product.code { map with file := some call.url.text } := by
    rw [Product.codeFor, hmapFor]
    exact if_pos hs
  have hrun : call.run { session := s } next st = (.ok returned,
      (call.outcome { session := s } next st).2.register call.url
        (some { map with file := some call.url.text })) := by
    rw [Call.run_eq, h, conclude, mapOf?, Option.bind_some, hmapFor]
  rw [hrun]
  refine ⟨rfl, digits, _, ?_, hline, hread, rfl, SourceMap.Registry.get?_set_self _ _ _⟩
  rw [Call.text?_of_outcome h, hcode, withMapComment, hcomment]

/-- The map of a document that is loaded stands in the code that is given. -/
theorem run_inlines_map_document :
    let call : Call := .load (rootFile "a.json") {}
    let setup : Setup := { session := rootSession }
    let st : State Unit := { host := () }
    let next := Loader.always ⟨some .json, some (Text.utf8 "[1]".toList)⟩
    rootSession.capabilities.inlineSourceMaps = true ∧
    ∃ returned made, (call.outcome setup next st).1 = .ok (returned, some made) ∧
      (call.run setup next st).1 = .ok returned ∧ ∃ digits map,
        returned.text? = some
          ((if Text.endsWith "\n" made.product.code then made.product.code
              else made.product.code ++ "\n") ++
            ("//# sourceMappingURL=data:application/json;base64," ++ digits)) ∧
        '\n' ∉ digits.toList ∧
        ((Text.Base64.decode? digits.toList).bind Text.decode?).map SourceMap.ofJson =
          some (.ok map) ∧
        map.file = some call.url.text ∧
        (call.run setup next st).2.maps.get? call.url.text = some map := by
  intro call setup st next
  have hmade : (transpiled setup (rootFile "a.json") "[1]").isOk = true := by decide +kernel
  cases htranspiled : transpiled setup (rootFile "a.json") "[1]" with
  | error fault =>
    rw [htranspiled] at hmade
    cases hmade
  | ok made =>
    have houtcome : (call.outcome setup next st).1 =
        .ok (.loaded ⟨some .module, some (Text.utf8
          (codeOf rootSession (rootFile "a.json") "[1]" (some made)).toList)⟩, some made) := by
      have hdecoded : Text.decode? (Text.utf8 "[1]".toList) = some "[1]" :=
        Text.decode?_eq_some_iff.mpr rfl
      simp only [call, next, Call.outcome, run_always, preparedLoaded, hdecoded]
      simp only [madeOf, htranspiled]
      rfl
    exact ⟨rfl, _, made, houtcome, run_inlines_map rfl next call st houtcome⟩

end Load

end ScriptModules

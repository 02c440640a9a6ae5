import Mathlib.Data.List.Forall2
import ScriptModules.Project.Config
import ScriptModules.Proofs.Except
import ScriptModules.Proofs.Text.Patterns

/-!
# Names that are mapped

A name goes by the pattern that it is, or else by the pattern with a star that matches it with the
longest text before the star, the first one of several. The targets of that pattern are the
candidates, and those of no other one. Where no pattern matches, a name that is not relative stands
below the base directory.
-/

namespace ScriptModules.Project

open Json (Value Members)

variable {name pattern : String} {patterns : List (String × List String)} {targets : List String}
  {base : Path} {baseUrl : Option Path} {front captured back : List Char} {paths : List Path}

/-- The patterns of a table with their targets, in the order in which they are written. Entries that
are no arrays are left out, and so are items that are no texts. -/
def patternsOf (table : Members) : List (String × List String) :=
  table.filterMap fun (pattern, targets) => (textsOf targets).map fun texts => (pattern, texts)

/-- The mappings of patterns whose targets stand below one directory. -/
def mapAll (base : Path) (patterns : List (String × List String)) : List Mapping :=
  patterns.map fun (pattern, targets) => mappingOf base pattern targets

/-- The mappings of a table are those of its patterns. -/
theorem mappingsOf_eq (table : Members) (base : Path) :
    mappingsOf table base = mapAll base (patternsOf table) := by
  rw [mappingsOf, mapAll, patternsOf, List.map_filterMap]
  congr 1
  funext ⟨pattern, value⟩
  dsimp only
  cases textsOf value <;> rfl

/-- A mapping has a wildcard if there is a star in its pattern. -/
theorem hasWildcard_mappingOf (base : Path) (pattern : String) (targets : List String) :
    (mappingOf base pattern targets).hasWildcard = true ↔ '*' ∈ pattern.toList := by
  simp [mappingOf]

/-- The first star of a pattern is its wildcard. -/
theorem mappingOf_of_split (base : Path) (targets : List String)
    (h : pattern.toList = front ++ '*' :: back) (hplain : '*' ∉ front) :
    (mappingOf base pattern targets).front = String.ofList front ∧
      (mappingOf base pattern targets).back = String.ofList back := by
  have hfront : pattern.toList.takeWhile (· != '*') = front := by
    rw [h, Text.takeWhile_append_of_head (by simp), List.takeWhile_eq_self_iff]
    intro c hc
    exact bne_iff_ne.mpr fun heq => hplain (heq ▸ hc)
  have hback : pattern.toList.drop (front.length + 1) = back := by
    rw [h, ← List.drop_drop, List.drop_left]
    rfl
  simp only [mappingOf, hfront, hback, and_self]

/-- The mapping of a pattern, with what its wildcard matches in a name. -/
def tryPattern (base : Path) (name : String) (m : String × List String) :
    Option (Mapping × List Char) :=
  let mapping := mappingOf base m.1 m.2
  (if mapping.hasWildcard then Config.captured? name mapping else none).map (mapping, ·)

/-- A match yields to one with more before the star. -/
def yieldsLonger (b c : Mapping × List Char) : Bool :=
  decide (b.1.front.utf8ByteSize < c.1.front.utf8ByteSize)

/-- What yields to longer matches ranks them. -/
theorem ranks_yieldsLonger : Text.Ranks yieldsLonger :=
  Text.ranks_lt fun b : Mapping × List Char => b.1.front.utf8ByteSize

/-- The best mapping is kept while the patterns are gone through. -/
theorem bestMapping?_eq (base : Path) (name : String) (patterns : List (String × List String)) :
    Config.bestMapping? name (mapAll base patterns) =
      patterns.foldl (Text.keepBetter (tryPattern base name) yieldsLonger) none := by
  rw [Config.bestMapping?, mapAll, List.foldl_map]
  congr 1
  funext best ⟨pattern, targets⟩
  unfold Text.keepBetter tryPattern
  dsimp only
  generalize (if (mappingOf base pattern targets).hasWildcard = true then
    Config.captured? name (mappingOf base pattern targets) else none) = captured?
  cases captured? <;> rfl

/-- A pattern comes into question if it matches the name. -/
theorem tryPattern_eq_some_iff {b : Mapping × List Char} :
    tryPattern base name (pattern, targets) = some b ↔ ∃ front captured back,
      Text.Matches pattern name front captured back ∧
        b = (mappingOf base pattern targets, captured) := by
  unfold tryPattern Config.captured?
  dsimp only
  constructor
  · intro h
    obtain ⟨captured, hcaptured, rfl⟩ := Option.map_eq_some_iff.mp h
    split at hcaptured
    · rename_i hwildcard
      obtain ⟨front, back, hpattern, hplain⟩ :=
        List.eq_append_cons_of_mem ((hasWildcard_mappingOf base pattern targets).mp hwildcard)
      obtain ⟨hfront, hback⟩ := mappingOf_of_split base targets hpattern hplain
      rw [hfront, hback, String.toList_ofList, String.toList_ofList] at hcaptured
      split at hcaptured
      · rename_i hfits
        obtain ⟨hstarts, hends⟩ := Bool.and_eq_true_iff.mp hfits
        exact ⟨front, captured, back, ⟨hpattern, hplain, Text.eq_append_iff.mpr
          ⟨hstarts, hends, Option.some.inj hcaptured⟩⟩, rfl⟩
      · cases hcaptured
    · cases hcaptured
  · rintro ⟨front, captured, back, h, rfl⟩
    obtain ⟨hfront, hback⟩ := mappingOf_of_split base targets h.pattern_eq h.plain
    obtain ⟨hstarts, hends, hcaptured⟩ := Text.eq_append_iff.mp h.name_eq
    have hwildcard : (mappingOf base pattern targets).hasWildcard = true :=
      (hasWildcard_mappingOf base pattern targets).mpr (by simp [h.pattern_eq])
    rw [if_pos hwildcard, hfront, hback, String.toList_ofList, String.toList_ofList, hstarts, hends,
      hcaptured]
    rfl

/-- What holds of all patterns that come into question holds of all matches. -/
theorem forall_tryPattern_iff {P : Mapping × List Char → Prop} :
    (∀ m ∈ patterns, ∀ b, tryPattern base name m = some b → P b) ↔
      ∀ m ∈ patterns, ∀ front captured back, Text.Matches m.1 name front captured back →
        P (mappingOf base m.1 m.2, captured) := by
  refine forall₂_congr fun m _ => ⟨fun h front captured back hmatch => ?_, fun h b hb => ?_⟩
  · exact h _ (tryPattern_eq_some_iff.mpr ⟨front, captured, back, hmatch, rfl⟩)
  · obtain ⟨front, captured, back, hmatch, rfl⟩ := tryPattern_eq_some_iff.mp hb
    exact h front captured back hmatch

/-- A match yields to one with more characters before its star. -/
theorem yieldsLonger_iff {pattern' : String} {targets' : List String}
    {front' captured' back' : List Char} (h : Text.Matches pattern name front captured back)
    (h' : Text.Matches pattern' name front' captured' back') :
    yieldsLonger (mappingOf base pattern targets, captured)
        (mappingOf base pattern' targets', captured') = true ↔ front.length < front'.length := by
  rw [yieldsLonger, decide_eq_true_iff, (mappingOf_of_split _ _ h.pattern_eq h.plain).1,
    (mappingOf_of_split _ _ h'.pattern_eq h'.plain).1, Text.utf8ByteSize_ofList,
    Text.utf8ByteSize_ofList, ← Nat.not_le, ← Nat.not_le,
    Text.bytesOf_le_iff h'.front_prefix h.front_prefix]

/-- The first of the patterns that match with the longest text before the star, with its targets and
what the star stands for. -/
def FirstLongest (patterns : List (String × List String)) (name : String) (targets : List String)
    (captured : List Char) : Prop :=
  ∃ before pattern after front back, patterns = before ++ (pattern, targets) :: after ∧
    Text.Matches pattern name front captured back ∧
    (∀ m ∈ before, ∀ front' captured' back', Text.Matches m.1 name front' captured' back' →
      front'.length < front.length) ∧
    ∀ m ∈ after, ∀ front' captured' back', Text.Matches m.1 name front' captured' back' →
      front'.length ≤ front.length

/-- The first of the longest matches is the best mapping. -/
theorem FirstLongest.exists_bestMapping? (h : FirstLongest patterns name targets captured)
    (base : Path) : ∃ pattern, Config.bestMapping? name (mapAll base patterns) =
      some (mappingOf base pattern targets, captured) := by
  obtain ⟨before, pattern, after, front, back, rfl, hmatch, hbefore, hafter⟩ := h
  rw [bestMapping?_eq]
  refine ⟨pattern, Text.IsBest.foldl_eq
    ⟨tryPattern_eq_some_iff.mpr ⟨front, captured, back, hmatch, rfl⟩,
      forall_tryPattern_iff.mpr fun m hm front' captured' back' h => ?_,
      forall_tryPattern_iff.mpr fun m hm front' captured' back' h => ?_⟩⟩
  · exact (yieldsLonger_iff h hmatch).mpr (hbefore m hm front' captured' back' h)
  · exact Bool.eq_false_iff.mpr fun hyields => Nat.not_lt_of_le
      (hafter m hm front' captured' back' h) ((yieldsLonger_iff hmatch h).mp hyields)

/-- The best mapping is that of the first of the longest matches. -/
theorem exists_firstLongest {b : Mapping × List Char}
    (h : Config.bestMapping? name (mapAll base patterns) = some b) :
    ∃ targets captured, FirstLongest patterns name targets captured := by
  rw [bestMapping?_eq] at h
  obtain ⟨before, ⟨pattern, targets⟩, after, rfl, hbest⟩ :=
    (Text.foldl_keepBetter_eq_some_iff ranks_yieldsLonger).mp h
  obtain ⟨front, captured, back, hmatch, rfl⟩ := tryPattern_eq_some_iff.mp hbest.here
  refine ⟨targets, captured, before, pattern, after, front, back, rfl, hmatch,
    fun m hm front' captured' back' h => ?_, fun m hm front' captured' back' h => ?_⟩
  · exact (yieldsLonger_iff h hmatch).mp
      (forall_tryPattern_iff.mp hbest.earlier m hm front' captured' back' h)
  · have hyields := forall_tryPattern_iff.mp hbest.later m hm front' captured' back' h
    exact Nat.le_of_not_lt fun hlt =>
      Bool.eq_false_iff.mp hyields ((yieldsLonger_iff hmatch h).mpr hlt)

/-- There is no best mapping if no pattern matches. -/
theorem bestMapping?_eq_none_iff :
    Config.bestMapping? name (mapAll base patterns) = none ↔
      ∀ m ∈ patterns, ∀ front captured back, ¬ Text.Matches m.1 name front captured back := by
  rw [bestMapping?_eq, Text.foldl_keepBetter_eq_none_iff ranks_yieldsLonger]
  exact (forall₂_congr fun m _ => Option.eq_none_iff_forall_ne_some).trans
    (forall_tryPattern_iff (P := fun _ => False))

/-- A pattern without a star is taken for the name that it is. -/
theorem find?_mapAll (base : Path) (patterns : List (String × List String)) (name : String) :
    (mapAll base patterns).find? (fun m => !m.hasWildcard && m.pattern == name) =
      if '*' ∈ name.toList then none else (patterns.lookup name).map (mappingOf base name) := by
  induction patterns with
  | nil => simp [mapAll]
  | cons m rest ih =>
    obtain ⟨pattern, targets⟩ := m
    rw [mapAll, List.map_cons, List.find?_cons, ← mapAll, ih, List.lookup_cons]
    have hpattern : (mappingOf base pattern targets).pattern = pattern := rfl
    have hwildcard := hasWildcard_mappingOf base pattern targets
    by_cases hname : name = pattern
    · subst hname
      by_cases hstar : '*' ∈ name.toList
      · simp [hstar, hwildcard.mpr hstar]
      · simp [hstar, hpattern, Bool.eq_false_iff.mpr (mt hwildcard.mp hstar)]
    · simp [hpattern, beq_eq_false_iff_ne.mpr hname, beq_eq_false_iff_ne.mpr (Ne.symm hname)]

/-- No mapping has a name as its pattern if the name has a star or no pattern is the name. -/
theorem find?_mapAll_eq_none (base : Path)
    (hexact : '*' ∈ name.toList ∨ patterns.lookup name = none) :
    (mapAll base patterns).find? (fun m => !m.hasWildcard && m.pattern == name) = none := by
  rw [find?_mapAll]
  rcases hexact with hstar | hlookup
  · exact if_pos hstar
  · simp [hlookup]

/-- A text with its first star replaced. -/
inductive StarFilled (captured template : List Char) : List Char → Prop
  | none (h : '*' ∉ template) : StarFilled captured template template
  | first {front back : List Char} (h : template = front ++ '*' :: back) (hplain : '*' ∉ front) :
    StarFilled captured template (front ++ captured ++ back)

/-- A text without stars has nothing to fill. -/
theorem fillFirstStar_of_not_mem {template : List Char} (h : '*' ∉ template) :
    Config.fillFirstStar captured template = template := by
  induction template with
  | nil => rfl
  | cons c rest ih =>
    obtain ⟨hc, hrest⟩ : '*' ≠ c ∧ '*' ∉ rest := by simpa using h
    rw [Config.fillFirstStar, if_neg (by simpa using hc.symm), ih hrest]

/-- The first star is filled, and what stands behind it stays. -/
theorem fillFirstStar_append (h : '*' ∉ front) (captured back : List Char) :
    Config.fillFirstStar captured (front ++ '*' :: back) = front ++ captured ++ back := by
  induction front with
  | nil => rfl
  | cons c rest ih =>
    obtain ⟨hc, hrest⟩ : '*' ≠ c ∧ '*' ∉ rest := by simpa using h
    rw [List.cons_append, Config.fillFirstStar, if_neg (by simpa using hc.symm), ih hrest]
    rfl

/-- The first star of a text is replaced by filling it. -/
theorem starFilled_iff {template text : List Char} :
    StarFilled captured template text ↔ text = Config.fillFirstStar captured template := by
  constructor
  · rintro (h | ⟨rfl, hplain⟩)
    · exact (fillFirstStar_of_not_mem h).symm
    · exact (fillFirstStar_append hplain _ _).symm
  · rintro rfl
    by_cases hstar : '*' ∈ template
    · obtain ⟨front, back, rfl, hplain⟩ := List.eq_append_cons_of_mem hstar
      rw [fillFirstStar_append hplain]
      exact .first rfl hplain
    · rw [fillFirstStar_of_not_mem hstar]
      exact .none hstar

/-- A target below a directory: its first star replaced, joined to the directory and in its normal
form. -/
def Expands (base : Path) (captured : List Char) (target : String) (p : Path) : Prop :=
  ∃ text : String, StarFilled captured target.toList text.toList ∧ p = (base.join text).normalize

/-- A target expands to where it is found. -/
theorem expands_iff {target : String} {p : Path} :
    Expands base captured target p ↔ Config.expand captured ⟨target, base⟩ = p := by
  rw [Config.expand]
  constructor
  · rintro ⟨text, hfilled, rfl⟩
    rw [← starFilled_iff.mp hfilled, String.ofList_toList]
  · rintro rfl
    refine ⟨String.ofList (Config.fillFirstStar captured target.toList), ?_, rfl⟩
    rw [String.toList_ofList]
    exact starFilled_iff.mpr rfl

/-- The substitutions of a mapping are its targets, one by one. -/
theorem forall₂_expands_iff (pattern : String) :
    List.Forall₂ (Expands base captured) targets paths ↔
      (mappingOf base pattern targets).substitutions.map (Config.expand captured) = paths := by
  rw [← List.forall₂_eq_eq_eq, mappingOf, List.forall₂_map_left_iff, List.forall₂_map_left_iff]
  exact ⟨List.Forall₂.imp fun _ _ => expands_iff.mp, List.Forall₂.imp fun _ _ => expands_iff.mpr⟩

/-- The paths that a name may stand for. -/
inductive CandidatesOf (patterns : List (String × List String)) (base : Path)
    (baseUrl : Option Path) (name : String) : List Path → Prop
  /-- A pattern without a star that is the name. -/
  | exact {targets : List String} {paths : List Path} (hstar : '*' ∉ name.toList)
    (hlookup : patterns.lookup name = some targets)
    (hpaths : List.Forall₂ (Expands base []) targets paths) :
    CandidatesOf patterns base baseUrl name paths
  | longest {targets : List String} {captured : List Char} {paths : List Path}
    (hexact : '*' ∈ name.toList ∨ patterns.lookup name = none)
    (hfirst : FirstLongest patterns name targets captured)
    (hpaths : List.Forall₂ (Expands base captured) targets paths) :
    CandidatesOf patterns base baseUrl name paths
  | below {dir : Path} (hexact : '*' ∈ name.toList ∨ patterns.lookup name = none)
    (hnone : ∀ m ∈ patterns, ∀ front captured back, ¬ Text.Matches m.1 name front captured back)
    (hdir : baseUrl = some dir)
    (hname : name.toList.head? ≠ some '.' ∧ name.toList.head? ≠ some '/') :
    CandidatesOf patterns base baseUrl name [(dir.join name).normalize]
  | nothing (hexact : '*' ∈ name.toList ∨ patterns.lookup name = none)
    (hnone : ∀ m ∈ patterns, ∀ front captured back, ¬ Text.Matches m.1 name front captured back)
    (h : baseUrl = none ∨ name.toList.head? = some '.' ∨ name.toList.head? = some '/') :
    CandidatesOf patterns base baseUrl name []

section Candidates

variable {c : Config}

/-- A name that is a pattern stands for the targets of this pattern. -/
theorem candidates_of_lookup (hc : c.mappings = mapAll base patterns) (hstar : '*' ∉ name.toList)
    (hlookup : patterns.lookup name = some targets) :
    c.candidates name =
      (mappingOf base name targets).substitutions.map (Config.expand []) := by
  rw [Config.candidates, hc, find?_mapAll, if_neg hstar, hlookup]
  rfl

/-- A name that is no pattern stands for the targets of the best mapping. -/
theorem candidates_of_best (hc : c.mappings = mapAll base patterns)
    (hexact : '*' ∈ name.toList ∨ patterns.lookup name = none) {m : Mapping}
    (hbest : Config.bestMapping? name (mapAll base patterns) = some (m, captured)) :
    c.candidates name = m.substitutions.map (Config.expand captured) := by
  rw [Config.candidates, hc, find?_mapAll_eq_none base hexact, hbest]

/-- A name that nothing matches stands for itself below the base directory, if there is one. -/
theorem candidates_of_unmatched (hc : c.mappings = mapAll base patterns)
    (hexact : '*' ∈ name.toList ∨ patterns.lookup name = none)
    (hnone : ∀ m ∈ patterns, ∀ front captured back,
      ¬ Text.Matches m.1 name front captured back) :
    c.candidates name = match c.baseUrl with
      | some dir =>
        if name.toList.head? = some '.' ∨ name.toList.head? = some '/' then []
        else [(dir.join name).normalize]
      | none => [] := by
  rw [Config.candidates, hc, find?_mapAll_eq_none base hexact, bestMapping?_eq_none_iff.mpr hnone]
  cases c.baseUrl <;> simp

/-- Every case of the candidates gives them, and one case always holds. -/
theorem candidates_of_mapAll (hc : c.mappings = mapAll base patterns) :
    c.candidates name = paths ↔ CandidatesOf patterns base c.baseUrl name paths := by
  constructor
  · rintro rfl
    by_cases hexact : '*' ∈ name.toList ∨ patterns.lookup name = none
    · cases hbest : Config.bestMapping? name (mapAll base patterns) with
      | some b =>
        obtain ⟨targets, captured, hfirst⟩ := exists_firstLongest hbest
        obtain ⟨pattern, hbest⟩ := hfirst.exists_bestMapping? base
        exact .longest hexact hfirst
          ((forall₂_expands_iff pattern).mpr (candidates_of_best hc hexact hbest).symm)
      | none =>
        have hnone := bestMapping?_eq_none_iff.mp hbest
        rw [candidates_of_unmatched hc hexact hnone]
        cases c.baseUrl with
        | none => exact .nothing hexact hnone (Or.inl rfl)
        | some dir =>
          dsimp only
          split
          · rename_i hname
            exact .nothing hexact hnone (Or.inr hname)
          · rename_i hname
            exact .below hexact hnone rfl (not_or.mp hname)
    · obtain ⟨hstar, hlookup⟩ := not_or.mp hexact
      obtain ⟨targets, hlookup⟩ := Option.ne_none_iff_exists'.mp hlookup
      exact .exact hstar hlookup
        ((forall₂_expands_iff name).mpr (candidates_of_lookup hc hstar hlookup).symm)
  · intro h
    cases h with
    | exact hstar hlookup hpaths =>
      rw [candidates_of_lookup hc hstar hlookup]
      exact (forall₂_expands_iff name).mp hpaths
    | longest hexact hfirst hpaths =>
      obtain ⟨pattern, hbest⟩ := hfirst.exists_bestMapping? base
      rw [candidates_of_best hc hexact hbest]
      exact (forall₂_expands_iff pattern).mp hpaths
    | below hexact hnone hdir hname =>
      rw [candidates_of_unmatched hc hexact hnone, hdir]
      exact if_neg (not_or.mpr hname)
    | nothing hexact hnone h =>
      rw [candidates_of_unmatched hc hexact hnone]
      rcases h with hbase | hname
      · rw [hbase]
      · cases c.baseUrl with
        | none => rfl
        | some dir => exact if_pos hname

end Candidates

/-- The patterns of a layer. -/
def Layer.declaredPatterns (layer : Layer) : List (String × List String) :=
  patternsOf ((layer.mappings.map Prod.fst).getD [])

/-- Where the targets of a layer start from: the base directory, or else the directory of the file
with the table. -/
def Layer.targetDir (layer : Layer) : Path :=
  layer.baseUrl.getD ((layer.mappings.map Prod.snd).getD ⟨""⟩)

/-- A configuration has the mappings of its layer, and the base directory too. -/
theorem mappings_of_assemble {path : Path} {layer : Layer} {json : Value} {config : Config}
    (h : Config.assemble path layer json = .ok config) :
    config.mappings = mapAll layer.targetDir layer.declaredPatterns ∧
      config.baseUrl = layer.baseUrl := by
  obtain ⟨scope, -, h⟩ := exists_of_bind_eq_ok h
  obtain rfl := Except.ok.inj h
  refine ⟨?_, rfl⟩
  dsimp only
  rw [Layer.declaredPatterns, Layer.targetDir]
  cases layer.mappings with
  | none => rfl
  | some pair => exact mappingsOf_eq _ _

/-- The candidates for a name are the targets of the pattern that it is, or else of the first of the
patterns that match it with the longest text before the star, or else the name below the base
directory, or none; and they are these alone. -/
theorem candidates_eq_iff {path : Path} {layer : Layer} {json : Value} {config : Config}
    (h : Config.assemble path layer json = .ok config) (name : String) (paths : List Path) :
    config.candidates name = paths ↔
      CandidatesOf layer.declaredPatterns layer.targetDir layer.baseUrl name paths := by
  obtain ⟨hmappings, hbase⟩ := mappings_of_assemble h
  rw [candidates_of_mapAll hmappings, hbase]

/-- A layer with two patterns that differ behind the star alone. -/
def tied : Layer :=
  { mappings := some ([("@app/*", .array [.string "src/*", .string "lib/*"]),
      ("@app/*.js", .array [.string "js/*.js"])], ⟨"/w"⟩) }

/-- Of two patterns with the same text before the star the first one is taken. -/
theorem candidates_eq_iff_tied :
    ∃ config, Config.assemble ⟨"/w/tsconfig.json"⟩ tied .null = .ok config ∧
      config.candidates "@app/x.js" = [⟨"/w/src/x.js"⟩, ⟨"/w/lib/x.js"⟩] := by
  have hok : (Config.assemble ⟨"/w/tsconfig.json"⟩ tied .null).toOption.isSome = true := by
    decide +kernel
  cases hassemble : Config.assemble ⟨"/w/tsconfig.json"⟩ tied .null with
  | error fault =>
    rw [hassemble] at hok
    cases hok
  | ok config =>
    have hpatterns : tied.declaredPatterns =
        [("@app/*", ["src/*", "lib/*"]), ("@app/*.js", ["js/*.js"])] := rfl
    have hmatch : Text.Matches "@app/*" "@app/x.js" "@app/".toList "x.js".toList [] :=
      ⟨by decide, by decide, by decide⟩
    have hother : Text.Matches "@app/*.js" "@app/x.js" "@app/".toList "x".toList ".js".toList :=
      ⟨by decide, by decide, by decide⟩
    have hfirst :
        FirstLongest tied.declaredPatterns "@app/x.js" ["src/*", "lib/*"] "x.js".toList := by
      refine ⟨[], "@app/*", [("@app/*.js", ["js/*.js"])], _, _, hpatterns, hmatch, by simp, ?_⟩
      intro m hm front captured back h
      obtain rfl := List.mem_singleton.mp hm
      exact Nat.le_of_eq (congrArg List.length (h.unique hother).1)
    refine ⟨config, rfl, (candidates_eq_iff hassemble _ _).mpr (.longest ?_ hfirst ?_)⟩
    · exact Or.inr rfl
    · exact (forall₂_expands_iff "@app/*").mpr (by decide +kernel)

end ScriptModules.Project

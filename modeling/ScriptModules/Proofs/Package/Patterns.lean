import ScriptModules.Proofs.Json.Keys
import ScriptModules.Proofs.Package.Conditions
import ScriptModules.Proofs.Text.Patterns

/-!
# Keys with a star

A name that a table does not have as it is goes by the keys with one star that match it. The longest
text before the star decides, and the last of the keys where that is the same for several. So the
order of the keys matters to a table where such keys come to different targets.
-/

namespace ScriptModules.Package

open Json (Value Members)

variable {table table' : Members} {name : String} {target : Value}
  {front captured : List Char} {conditions : List String}

/-- A key with exactly one star matches a name that has some text in the place of the star. -/
structure KeyMatches (key name : String) (front captured back : List Char) : Prop
    extends Text.Matches key name front captured back where
  single : '*' ∉ back
  captured_ne_nil : captured ≠ []

/-- A text has two pieces if there is one star, between them. -/
theorem splitAt_eq_pair_iff {cs front back : List Char} :
    Text.splitAt '*' cs = [front, back] ↔ cs = front ++ '*' :: back ∧ '*' ∉ front ∧ '*' ∉ back := by
  constructor
  · intro h
    have hpieces : ∀ piece ∈ Text.splitAt '*' cs, '*' ∉ piece := fun piece hpiece =>
      Text.not_mem_of_mem_splitAt hpiece
    rw [h] at hpieces
    refine ⟨?_, hpieces front (by simp), hpieces back (by simp)⟩
    rw [← Text.intercalate_splitAt '*' cs, h]
    simp
  · rintro ⟨rfl, hfront, hback⟩
    rw [Text.splitAt_append_cons hfront, Text.splitAt_of_not_mem hback]

/-- A key that matches a name is told by what its star captures and the bytes before the star. -/
theorem matchPattern?_eq_some_iff {key : String} {n : Nat} :
    matchPattern? key.toList name.toList = some (n, captured) ↔
      ∃ front back, KeyMatches key name front captured back ∧ n = Text.bytesOf front := by
  constructor
  · intro h
    unfold matchPattern? at h
    split at h
    · rename_i front back hsplit
      obtain ⟨hkey, hfront, hback⟩ := splitAt_eq_pair_iff.mp hsplit
      split at h
      · rename_i hstarts
        extract_lets rest at h
        split at h
        · rename_i hends
          obtain ⟨hsuffix, hlonger⟩ := Bool.and_eq_true_iff.mp hends
          obtain ⟨rfl, hcaptured⟩ := Prod.mk.inj (Option.some.inj h)
          have hname := Text.eq_append_iff.mpr ⟨hstarts, hsuffix, hcaptured⟩
          refine ⟨front, back, ⟨⟨hkey, hfront, hname⟩, hback, ?_⟩, rfl⟩
          rintro rfl
          simp only [rest, hname, List.append_nil, List.drop_left] at hlonger
          exact absurd hlonger (by simp)
        · cases h
      · cases h
    · cases h
  · rintro ⟨front, back, h, rfl⟩
    obtain ⟨hstarts, hsuffix, hcaptured⟩ := Text.eq_append_iff.mp h.name_eq
    have hlonger : (name.toList.drop front.length).length > back.length := by
      rw [h.name_eq, List.append_assoc, List.drop_left, List.length_append]
      exact Nat.lt_add_of_pos_left (List.length_pos_iff.mpr h.captured_ne_nil)
    unfold matchPattern?
    rw [splitAt_eq_pair_iff.mpr ⟨h.pattern_eq, h.plain, h.single⟩]
    simp only [hstarts, hsuffix, hlonger, hcaptured, decide_true, Bool.and_self, if_true]
    rfl

/-- A target whose key matches a name, with what stands before the star and in its place. -/
def Matching (table : Members) (name : String) (target : Value) (front captured : List Char) :
    Prop :=
  ∃ key back, (key, target) ∈ table ∧ KeyMatches key name front captured back

/-- Targets that match with the longest text before the star. -/
def Longest (table : Members) (name : String) (target : Value) (front captured : List Char) :
    Prop :=
  Matching table name target front captured ∧
    ∀ other front' captured', Matching table name other front' captured' →
      front'.length ≤ front.length

/-- The last of the targets that match with the longest text before the star. -/
def LastLongest (table : Members) (name : String) (target : Value) (front captured : List Char) :
    Prop :=
  ∃ before key after back, table = before ++ (key, target) :: after ∧
    KeyMatches key name front captured back ∧
    (∀ other front' captured', Matching before name other front' captured' →
      front'.length ≤ front.length) ∧
    ∀ other front' captured', Matching after name other front' captured' →
      front'.length < front.length

/-- A target of a table is one of every table with more members. -/
theorem Matching.mono (h : Matching table name target front captured)
    (hsub : ∀ m ∈ table, m ∈ table') : Matching table' name target front captured := by
  obtain ⟨key, back, hmem, hkey⟩ := h
  exact ⟨key, back, hsub _ hmem, hkey⟩

/-- A name starts with what stands before the star of a key that matches it. -/
theorem Matching.front_prefix (h : Matching table name target front captured) :
    front <+: name.toList := by
  obtain ⟨key, back, -, hkey⟩ := h
  exact hkey.toMatches.front_prefix

/-- The last of the longest matches is one of the longest. -/
theorem LastLongest.longest (h : LastLongest table name target front captured) :
    Longest table name target front captured := by
  obtain ⟨before, key, after, back, rfl, hkey, hbefore, hafter⟩ := h
  refine ⟨⟨key, back, by simp, hkey⟩, ?_⟩
  rintro other front' captured' ⟨key', back', hmem, hkey'⟩
  rcases List.mem_append.mp hmem with hmem | hmem
  · exact hbefore other front' captured' ⟨key', back', hmem, hkey'⟩
  · rcases List.mem_cons.mp hmem with heq | hmem
    · obtain ⟨rfl, rfl⟩ := Prod.mk.inj heq
      exact Nat.le_of_eq (congrArg List.length (hkey'.unique hkey.toMatches).1)
    · exact Nat.le_of_lt (hafter other front' captured' ⟨key', back', hmem, hkey'⟩)

/-- What a member of a table is to a name: the length of the text before the star, the target, and
the text in place of the star. -/
def tryKey (name : String) (m : String × Value) : Option (Nat × Value × List Char) :=
  (matchPattern? m.1.toList name.toList).map fun (n, captured) => (n, m.2, captured)

/-- A match yields to one with at least as much before the star. -/
def yieldsLater (b c : Nat × Value × List Char) : Bool := decide (b.1 ≤ c.1)

/-- What yields to later matches ranks them. -/
theorem ranks_yieldsLater : Text.Ranks yieldsLater := Text.ranks_le Prod.fst

/-- The best match is kept while the table is gone through. -/
theorem bestMatch?_eq (name : String) (table : Members) :
    bestMatch? name.toList table =
      (table.foldl (Text.keepBetter (tryKey name) yieldsLater) none).map (·.2) := by
  unfold bestMatch?
  congr 2
  funext best ⟨key, target⟩
  unfold Text.keepBetter tryKey
  dsimp only
  cases matchPattern? key.toList name.toList <;> rfl

/-- A member comes into question if its key matches the name. -/
theorem tryKey_eq_some_iff {key : String} {b : Nat × Value × List Char} :
    tryKey name (key, target) = some b ↔ ∃ front captured back,
      KeyMatches key name front captured back ∧ b = (Text.bytesOf front, target, captured) := by
  rw [tryKey, Option.map_eq_some_iff]
  constructor
  · rintro ⟨⟨n, captured⟩, hmatch, rfl⟩
    obtain ⟨front, back, hkey, rfl⟩ := matchPattern?_eq_some_iff.mp hmatch
    exact ⟨front, captured, back, hkey, rfl⟩
  · rintro ⟨front, captured, back, hkey, rfl⟩
    exact ⟨_, matchPattern?_eq_some_iff.mpr ⟨front, back, hkey, rfl⟩, rfl⟩

/-- What holds of all members that come into question holds of all matches. -/
theorem forall_tryKey_iff {P : Nat × Value × List Char → Prop} :
    (∀ m ∈ table, ∀ b, tryKey name m = some b → P b) ↔
      ∀ target front captured, Matching table name target front captured →
        P (Text.bytesOf front, target, captured) := by
  constructor
  · rintro h target front captured ⟨key, back, hmem, hkey⟩
    exact h _ hmem _ (tryKey_eq_some_iff.mpr ⟨front, captured, back, hkey, rfl⟩)
  · rintro h ⟨key, target⟩ hmem b hb
    obtain ⟨front, captured, back, hkey, rfl⟩ := tryKey_eq_some_iff.mp hb
    exact h target front captured ⟨key, back, hmem, hkey⟩

/-- The last of the longest is taken. -/
theorem bestMatch?_eq_some_iff :
    bestMatch? name.toList table = some (target, captured) ↔
      ∃ front, LastLongest table name target front captured := by
  rw [bestMatch?_eq, Option.map_eq_some_iff]
  constructor
  · rintro ⟨b, hfold, hb⟩
    obtain ⟨before, ⟨key, target'⟩, after, rfl, hbest⟩ :=
      (Text.foldl_keepBetter_eq_some_iff ranks_yieldsLater).mp hfold
    obtain ⟨front, captured', back, hkey, rfl⟩ := tryKey_eq_some_iff.mp hbest.here
    obtain ⟨rfl, rfl⟩ := Prod.mk.inj hb
    refine ⟨front, before, key, after, back, rfl, hkey, fun other front' captured' h => ?_,
      fun other front' captured' h => ?_⟩
    · have hyields := forall_tryKey_iff.mp hbest.earlier other front' captured' h
      exact (Text.bytesOf_le_iff h.front_prefix hkey.front_prefix).mp (of_decide_eq_true hyields)
    · have hyields := forall_tryKey_iff.mp hbest.later other front' captured' h
      exact Nat.lt_of_not_le fun hle => of_decide_eq_false hyields
        ((Text.bytesOf_le_iff hkey.front_prefix h.front_prefix).mpr hle)
  · rintro ⟨front, before, key, after, back, rfl, hkey, hbefore, hafter⟩
    refine ⟨(Text.bytesOf front, target, captured), ?_, rfl⟩
    refine Text.IsBest.foldl_eq ⟨tryKey_eq_some_iff.mpr ⟨front, captured, back, hkey, rfl⟩,
      forall_tryKey_iff.mpr fun other front' captured' h => ?_,
      forall_tryKey_iff.mpr fun other front' captured' h => ?_⟩
    · exact decide_eq_true ((Text.bytesOf_le_iff h.front_prefix hkey.front_prefix).mpr
        (hbefore other front' captured' h))
    · exact decide_eq_false fun hle => Nat.not_le_of_lt (hafter other front' captured' h)
        ((Text.bytesOf_le_iff hkey.front_prefix h.front_prefix).mp hle)

/-- There is no best match if no key matches. -/
theorem bestMatch?_eq_none_iff :
    bestMatch? name.toList table = none ↔
      ∀ target front captured, ¬ Matching table name target front captured := by
  rw [bestMatch?_eq, Option.map_eq_none_iff, Text.foldl_keepBetter_eq_none_iff ranks_yieldsLater,
    ← forall_tryKey_iff (P := fun _ => False)]
  exact forall₂_congr fun m _ => Option.eq_none_iff_forall_ne_some

/-- Where a key matches, there is a last one of the longest. -/
theorem Matching.exists_lastLongest (h : Matching table name target front captured) :
    ∃ target front captured, LastLongest table name target front captured := by
  cases hbest : bestMatch? name.toList table with
  | none => exact absurd h (bestMatch?_eq_none_iff.mp hbest target front captured)
  | some pair =>
    obtain ⟨front', hlast⟩ := bestMatch?_eq_some_iff.mp hbest
    exact ⟨pair.1, front', pair.2, hlast⟩

/-- A name with a star, or one that a table does not have, goes by the keys that match it. -/
def GoesByMatches (table : Members) (name : String) : Prop :=
  '*' ∈ name.toList ∨ table.get? name = none

/-- A name without stars that the table has comes to its own target. -/
theorem lookup?_of_get? (hstar : '*' ∉ name.toList) (h : table.get? name = some target) :
    lookup? conditions table name = evaluation conditions none target := by
  unfold lookup?
  simp [hstar, h, target?_eq_evaluation]

/-- A name that goes by the matches comes to the target of the best one. -/
theorem lookup?_of_goesByMatches (h : GoesByMatches table name) :
    lookup? conditions table name = (bestMatch? name.toList table).bind fun (target, captured) =>
      evaluation conditions (some captured) target := by
  have hplain : (if name.toList.contains '*' then none else table.get? name) = none := by
    rcases h with hstar | hnone <;> simp [*]
  unfold lookup?
  simp only [hplain, target?_eq_evaluation]

/-- An empty table has nothing. -/
theorem lookup?_nil (name : String) (conditions : List String) :
    lookup? conditions [] name = none := by
  rw [lookup?_of_goesByMatches (Or.inr rfl)]
  rfl

/-- The two ways in which a table is looked up in: exports by a subpath, where there are subpaths,
and imports by a name. Imports that are no object are an empty table. -/
inductive Consults : (Value → String → List String → Option String) → Value → Members → Prop
  | exports {table : Members} (h : hasSubpaths table = true) :
    Consults exportTarget? (.object table) table
  | imports (v : Value) : Consults importTarget? v (v.members?.getD [])

variable {look : Value → String → List String → Option String} {v : Value}

/-- Both ways to consult a table look up the name in it. -/
theorem Consults.eq_lookup? (h : Consults look v table) (name : String) (conditions : List String) :
    look v name conditions = lookup? conditions table name := by
  cases h with
  | exports h =>
    have htable : (Value.object table).members?.filter hasSubpaths = some table := by
      simp [Value.members?, Option.filter, h]
    rw [exportTarget?, htable]
  | imports v =>
    rw [importTarget?]
    cases v.members? with
    | none => exact (lookup?_nil name conditions).symm
    | some table => rfl

/-- A name without stars that is in the table is told by its own target. -/
theorem Consults.eq_of_get? (h : Consults look v table) (hstar : '*' ∉ name.toList)
    (hget : table.get? name = some target) (conditions : List String) :
    look v name conditions = evaluation conditions none target := by
  rw [h.eq_lookup?, lookup?_of_get? hstar hget]

/-- The last of the longest matches answers. -/
theorem Consults.eq_of_lastLongest (h : Consults look v table) (hgoes : GoesByMatches table name)
    (hlast : LastLongest table name target front captured) (conditions : List String) :
    look v name conditions = evaluation conditions (some captured) target := by
  rw [h.eq_lookup?, lookup?_of_goesByMatches hgoes, bestMatch?_eq_some_iff.mpr ⟨front, hlast⟩]
  rfl

/-- A name that goes by the matches is not told if there are none. -/
theorem Consults.eq_none (h : Consults look v table) (hgoes : GoesByMatches table name)
    (hnone : ∀ target front captured, ¬ Matching table name target front captured)
    (conditions : List String) : look v name conditions = none := by
  rw [h.eq_lookup?, lookup?_of_goesByMatches hgoes, bestMatch?_eq_none_iff.mpr hnone]
  rfl

/-- How a table answers for a name: with the target that the name stands with, or else with the last
of the longest matches, or not at all. -/
inductive Found (table : Members) (name : String) (answer? : List String → Option String) : Prop
  | plain {target : Value} (hstar : '*' ∉ name.toList) (hget : table.get? name = some target)
    (heq : ∀ conditions, answer? conditions = evaluation conditions none target)
  | matched {target : Value} {front captured : List Char} (hgoes : GoesByMatches table name)
    (hlast : LastLongest table name target front captured)
    (heq : ∀ conditions, answer? conditions = evaluation conditions (some captured) target)
  | missing (hgoes : GoesByMatches table name)
    (hnone : ∀ target front captured, ¬ Matching table name target front captured)
    (heq : ∀ conditions, answer? conditions = none)

/-- What a table tells of a name is found by these rules. -/
theorem Consults.found (h : Consults look v table) (name : String) :
    Found table name (look v name) := by
  by_cases hgoes : GoesByMatches table name
  · by_cases hmatch : ∃ target front captured, Matching table name target front captured
    · obtain ⟨target, front, captured, hmatch⟩ := hmatch
      obtain ⟨target, front, captured, hlast⟩ := hmatch.exists_lastLongest
      exact .matched hgoes hlast (h.eq_of_lastLongest hgoes hlast)
    · have hnone : ∀ target front captured, ¬ Matching table name target front captured := by
        simpa using hmatch
      exact .missing hgoes hnone (h.eq_none hgoes hnone)
  · obtain ⟨hstar, hget⟩ := not_or.mp hgoes
    obtain ⟨target, hget⟩ := Option.ne_none_iff_exists'.mp hget
    exact .plain hstar hget (h.eq_of_get? hstar hget)

/-- What a table has to answer for a name, under any conditions. -/
structure Answers (table : Members) (name : String) (answer? : List String → Option String) :
    Prop where
  /-- A name without a star that the table has comes to its own target. -/
  plain : '*' ∉ name.toList → ∀ target, table.get? name = some target →
    ∀ conditions, answer? conditions = evaluation conditions none target
  /-- Any other name comes to one target that matches with the longest text before the star, if
  any matches at all, whatever that target comes to. -/
  matched : GoesByMatches table name →
    (∃ target front captured, Longest table name target front captured ∧
      ∀ conditions, answer? conditions = evaluation conditions (some captured) target) ∨
    (∀ target front captured, ¬ Matching table name target front captured) ∧
      ∀ conditions, answer? conditions = none
  inside : ∀ conditions target, answer? conditions = some target →
    ['.', '.'] ∉ Text.splitAt '/' target.toList
  /-- Of the conditions only those matter that the targets name. -/
  named : ∀ conditions conditions',
    (∀ m ∈ table, AgreeOn (conditionNames m.2) conditions conditions') →
      answer? conditions = answer? conditions'

/-- A name without stars that the table has does not go by the matches. -/
theorem not_goesByMatches (hstar : '*' ∉ name.toList) (hget : table.get? name = some target) :
    ¬ GoesByMatches table name := by
  rintro (hin | hnone)
  · exact hstar hin
  · rw [hget] at hnone
    cases hnone

/-- A name comes to its own target in a table, or else to one whose key has the longest text before
the star of all that match; it never comes to a target that steps up, and of the conditions only
those that the targets name matter, as a set. -/
theorem answers_of_consults (h : Consults look v table) (name : String) :
    Answers table name (look v name) := by
  cases h.found name with
  | plain hstar hget heq =>
    obtain ⟨before, after, htable, -⟩ := List.lookup_eq_some_iff.mp hget
    refine ⟨fun _ target hget' conditions => ?_,
      fun hgoes => absurd hgoes (not_goesByMatches hstar hget), fun conditions target htarget => ?_,
      fun conditions conditions' hagree => ?_⟩
    · rw [heq, Option.some.inj (hget.symm.trans hget')]
    · exact stepsUp_eq_false_iff.mp (stepsUp_of_evaluation ((heq conditions).symm.trans htarget))
    · rw [heq, heq, evaluation_congr (hagree (name, _) (by rw [htable]; simp))]
  | matched hgoes hlast heq =>
    obtain ⟨key, back, hmem, -⟩ := hlast.longest.1
    refine ⟨fun hstar target hget => absurd hgoes (not_goesByMatches hstar hget),
      fun _ => Or.inl ⟨_, _, _, hlast.longest, heq⟩, fun conditions target htarget => ?_,
      fun conditions conditions' hagree => ?_⟩
    · exact stepsUp_eq_false_iff.mp (stepsUp_of_evaluation ((heq conditions).symm.trans htarget))
    · rw [heq, heq, evaluation_congr (hagree _ hmem)]
  | missing hgoes hnone heq =>
    refine ⟨fun hstar target hget => absurd hgoes (not_goesByMatches hstar hget),
      fun _ => Or.inr ⟨hnone, heq⟩, fun conditions target htarget => ?_,
      fun conditions conditions' _ => ?_⟩
    · rw [heq] at htarget
      cases htarget
    · rw [heq, heq]

/-- A table of exports with keys that match the same names. -/
def overlapping : Members :=
  [("./*", .string "./dist/*.js"),
    ("./features/*", .object [("node", .string "./dist/features/*.cjs"),
      ("default", .string "./dist/features/*/index.js")])]

/-- The longer text before the star decides which of two keys a subpath goes by. -/
theorem answers_of_consults_overlapping :
    Consults exportTarget? (.object overlapping) overlapping ∧
      Answers overlapping "./features/a" (exportTarget? (.object overlapping) "./features/a") ∧
      exportTarget? (.object overlapping) "./features/a" ["import", "import", "browser"] =
        some "./dist/features/a/index.js" := by
  have hconsults : Consults exportTarget? (.object overlapping) overlapping :=
    .exports (by decide +kernel)
  have hanswers := answers_of_consults hconsults "./features/a"
  have hagree : ∀ m ∈ overlapping,
      AgreeOn (conditionNames m.2) ["import", "import", "browser"] [] := by
    unfold AgreeOn
    decide +kernel
  refine ⟨hconsults, hanswers, (hanswers.named _ [] hagree).trans ?_⟩
  decide +kernel

/-- The order of a table has no part in whether a name goes by the matches. -/
theorem GoesByMatches.perm (hkeys : table.keys.Nodup) (hperm : table'.Perm table)
    (h : GoesByMatches table' name) : GoesByMatches table name :=
  h.imp_right fun hnone => (Members.get?_perm hkeys hperm name).symm.trans hnone

/-- The order of a table has no part in which matches are the longest. -/
theorem Longest.perm (hperm : table'.Perm table) (h : Longest table' name target front captured) :
    Longest table name target front captured :=
  ⟨h.1.mono fun _ => hperm.mem_iff.mp, fun other front' captured' hother =>
    h.2 other front' captured' (hother.mono fun _ => hperm.mem_iff.mpr)⟩

/-- Any of the longest is the last one when the table is written in some other order. -/
theorem Longest.exists_perm (h : Longest table name target front captured) :
    ∃ table', table'.Perm table ∧ LastLongest table' name target front captured := by
  obtain ⟨⟨key, back, hmem, hkey⟩, hlongest⟩ := h
  obtain ⟨before, after, rfl⟩ := List.append_of_mem hmem
  have hperm : ((before ++ after) ++ [(key, target)]).Perm (before ++ (key, target) :: after) := by
    rw [List.append_assoc]
    exact List.Perm.append_left before List.perm_append_comm
  refine ⟨_, hperm, before ++ after, key, [], back, rfl, hkey, fun other front' captured' hother =>
    hlongest other front' captured' (hother.mono fun m hm => ?_), ?_⟩
  · exact hperm.mem_iff.mp (List.mem_append_left _ hm)
  · rintro other front' captured' ⟨key', back', hmem', -⟩
    cases hmem'

/-- Targets that match with the longest text before the star come to the same. -/
def TiesAgree (table : Members) (name : String) (conditions : List String) : Prop :=
  ∀ target front captured other front' captured',
    Longest table name target front captured → Longest table name other front' captured' →
      evaluation conditions (some captured) target = evaluation conditions (some captured') other

/-- A table may be consulted in any order of its members. -/
theorem Consults.perm (h : Consults look (.object table) table) (hperm : table'.Perm table) :
    Consults look (.object table') table' := by
  cases h with
  | exports h => exact .exports (by rwa [hasSubpaths, hperm.any_eq])
  | imports => exact .imports (.object table')

/-- The last of the longest matches answers, so the order of the keys does not matter to a name
exactly when the longest matches come to the same, unless the table has the name as it is. -/
theorem unordered_iff_tiesAgree (h : Consults look (.object table) table)
    (hkeys : table.keys.Nodup) (name : String) (conditions : List String) :
    (GoesByMatches table name → ∀ target front captured,
      LastLongest table name target front captured →
        look (.object table) name conditions = evaluation conditions (some captured) target) ∧
    ((∀ table' : Members, table'.Perm table →
        look (.object table') name conditions = look (.object table) name conditions) ↔
      (GoesByMatches table name → TiesAgree table name conditions)) := by
  refine ⟨fun hgoes target front captured hlast => h.eq_of_lastLongest hgoes hlast conditions,
    fun hsame hgoes => ?_, fun hagree table' hperm => ?_⟩
  · have hlongest (target : Value) (front captured : List Char)
        (hlongest : Longest table name target front captured) :
        evaluation conditions (some captured) target = look (.object table) name conditions := by
      obtain ⟨table', hperm, hlast⟩ := hlongest.exists_perm
      have hkeys' : table'.keys.Nodup := (hperm.map Prod.fst).nodup_iff.mpr hkeys
      rw [← hsame table' hperm,
        (h.perm hperm).eq_of_lastLongest (hgoes.perm hkeys' hperm.symm) hlast]
    intro target front captured other front' captured' hmatch hother
    rw [hlongest _ _ _ hmatch, hlongest _ _ _ hother]
  · cases (h.perm hperm).found name with
    | plain hstar hget heq =>
      rw [Members.get?_perm hkeys hperm] at hget
      rw [heq, h.eq_of_get? hstar hget]
    | matched hgoes' hlast' heq =>
      have hgoes := hgoes'.perm hkeys hperm
      have hmatch := hlast'.longest.perm hperm
      obtain ⟨target, front, captured, hlast⟩ := hmatch.1.exists_lastLongest
      rw [heq, h.eq_of_lastLongest hgoes hlast]
      exact hagree hgoes _ _ _ _ _ _ hmatch hlast.longest
    | missing hgoes' hnone heq =>
      rw [heq, h.eq_none (hgoes'.perm hkeys hperm)]
      intro target front captured hmatch
      exact hnone target front captured (hmatch.mono fun _ => hperm.mem_iff.mpr)

/-- A subpath that only one key matches has the same target in any order. -/
theorem unordered_iff_tiesAgree_single :
    Consults exportTarget? (.object overlapping) overlapping ∧ overlapping.keys.Nodup ∧
      ∀ table' : Members, table'.Perm overlapping →
        exportTarget? (.object table') "./a" [] = some "./dist/a.js" := by
  have hconsults : Consults exportTarget? (.object overlapping) overlapping :=
    .exports (by decide +kernel)
  have hkeys : overlapping.keys.Nodup := by decide +kernel
  have hmatching (target : Value) (front captured : List Char)
      (h : Matching overlapping "./a" target front captured) :
      target = .string "./dist/*.js" ∧ captured = ['a'] := by
    obtain ⟨key, back, hmem, hkey⟩ := h
    have hpattern := matchPattern?_eq_some_iff.mpr ⟨front, back, hkey, rfl⟩
    rcases List.mem_cons.mp hmem with heq | hmem
    · obtain ⟨rfl, rfl⟩ := Prod.mk.inj heq
      have hfirst : matchPattern? "./*".toList "./a".toList = some (2, ['a']) := by decide +kernel
      exact ⟨rfl, (Prod.mk.inj (Option.some.inj (hpattern.symm.trans hfirst))).2⟩
    · obtain ⟨rfl, -⟩ := Prod.mk.inj (List.mem_singleton.mp hmem)
      have hsecond : matchPattern? "./features/*".toList "./a".toList = none := by decide +kernel
      rw [hsecond] at hpattern
      cases hpattern
  have hagree : TiesAgree overlapping "./a" [] := by
    intro target front captured other front' captured' hmatch hother
    obtain ⟨rfl, rfl⟩ := hmatching _ _ _ hmatch.1
    obtain ⟨rfl, rfl⟩ := hmatching _ _ _ hother.1
    rfl
  refine ⟨hconsults, hkeys, fun table' hperm => ?_⟩
  rw [(unordered_iff_tiesAgree hconsults hkeys "./a" []).2.mpr (fun _ => hagree) table' hperm]
  decide +kernel

/-- Of two keys that differ behind the star alone the one that is written later is taken, be it the
shorter one. -/
theorem not_forall_unordered :
    ¬ ∀ (look : Value → String → List String → Option String) (table table' : Members)
        (name : String) (conditions : List String), Consults look (.object table) table →
      table.keys.Nodup → table'.Perm table →
        look (.object table') name conditions = look (.object table) name conditions := by
  intro h
  have hsame := h exportTarget? [("./*", .string "./b/*"), ("./*.js", .string "./a/*.js")]
    [("./*.js", .string "./a/*.js"), ("./*", .string "./b/*")] "./x.js" []
    (.exports (by decide +kernel)) (by decide +kernel) (.swap _ _ _)
  exact absurd hsame (by decide +kernel)

end ScriptModules.Package

import ScriptModules.Proofs.Package.Again

/-!
# Answers over time

The files change while a cache is asked, and it is not told. What it has answered it answers again,
and the type that it tells for a file is the one that the manifest declares that it tells of at that
moment. Two facts carry this through every history: what is known of a manifest stays as it is, and
a type that is known was declared by a manifest that is known.
-/

namespace ScriptModules.Package

open Json (Value)
open Project (Fault)

namespace Cache

variable {t : Files.Tree} {c c' c'' : Cache}

/-- More is known of manifests, and the same of types. -/
structure Learns (c c' : Cache) : Prop where
  manifests : Extends c c'
  types : c'.types = c.types

/-- A cache knows what it knows. -/
theorem Learns.refl (c : Cache) : Learns c c := ⟨.refl c, rfl⟩

/-- What is learned in two steps is learned. -/
theorem Learns.trans (h : Learns c c') (h' : Learns c' c'') : Learns c c'' :=
  ⟨h.manifests.trans h'.manifests, h'.types.trans h.types⟩

/-- Reading a manifest may teach what is in it and changes nothing else. -/
theorem learns_reading (p : Path) (c : Cache) : Learns c (reading t p c).2 := by
  cases hlookup : c.manifests.lookup p.parts with
  | some known =>
    rw [reading_of_known hlookup]
    exact .refl c
  | none =>
    have htypes : (reading t p c).2.types = c.types := by
      rw [reading_of_unknown hlookup]
      cases found t p <;> rfl
    refine ⟨?_, htypes⟩
    rcases hread : reading t p c with ⟨f | value, after⟩
    · rw [reading_of_unknown hlookup] at hread
      cases hfound : found t p <;> rw [hfound] at hread
      · obtain ⟨-, rfl⟩ := Prod.mk.inj hread
        exact .refl c
      · cases hread
    · exact (reading_ok hread).1

/-- What a search upward leaves behind, and that it finds what is known by then. -/
theorem learns_nearestAmong (dirs : List Path) (c : Cache) :
    Learns c (nearestAmong t dirs c).2 ∧
      ∀ (p : Path) (value : Value), (nearestAmong t dirs c).1 = .ok (some (p, value)) →
        (∃ dir : Path, p = dir.join "package.json") ∧
          (nearestAmong t dirs c).2.manifests.lookup p.parts = some (some value) := by
  induction dirs generalizing c with
  | nil => exact ⟨.refl c, fun _ _ h => by cases h⟩
  | cons dir above ih =>
    by_cases hdir : (dir.fileName? == some "node_modules") = true
    · rw [nearestAmong_cons_of_packages hdir]
      exact ⟨.refl c, fun _ _ h => by cases h⟩
    · have hlearns : Learns c (reading t (dir.join "package.json") c).2 := learns_reading _ c
      rw [nearestAmong_cons hdir, settle]
      rcases hread : reading t (dir.join "package.json") c with ⟨f | _ | value, between⟩ <;>
        rw [hread] at hlearns
      · exact ⟨hlearns, fun _ _ h => by cases h⟩
      · exact ⟨hlearns.trans (ih between).1, (ih between).2⟩
      · refine ⟨hlearns, fun p value' h => ?_⟩
        obtain ⟨rfl, rfl⟩ := Prod.mk.inj (Option.some.inj (Except.ok.inj h))
        exact ⟨⟨dir, rfl⟩, (reading_ok hread).2⟩

/-- Every type that is known was declared by a manifest that is known. -/
def Coherent (c : Cache) : Prop :=
  ∀ parts format, c.types.lookup parts = some format → ∃ value,
    c.manifests.lookup (parts ++ [.name "package.json"]) = some (some value) ∧
      format = declaredFormat value

/-- Without any types everything agrees. -/
theorem coherent_empty : Coherent {} := fun _ _ h => by simp at h

/-- Types that were declared by known manifests still are when more is known. -/
theorem Coherent.of_learns (h : Coherent c) (hlearns : Learns c c') : Coherent c' := by
  intro parts format hlookup
  rw [hlearns.types] at hlookup
  obtain ⟨value, hknown, hformat⟩ := h parts format hlookup
  exact ⟨value, hlearns.manifests _ _ hknown, hformat⟩

/-- The type that is told for a manifest that is known is the one that it declares. -/
theorem Coherent.typeOf_eq (h : Coherent c) (dir : Path) {below : Path} {value : Value}
    (hknown : c.manifests.lookup (below.join "package.json").parts = some (some value)) :
    (typeOf dir (some (below.join "package.json", value)) c).1 = .ok (declaredFormat value) ∧
      Coherent (typeOf dir (some (below.join "package.json", value)) c).2 := by
  rw [Path.parts_join isName_manifest] at hknown
  rw [typeOf_join]
  cases hlookup : c.types.lookup below.parts with
  | some format =>
    obtain ⟨value', hvalue', hformat⟩ := h _ _ hlookup
    rw [hknown] at hvalue'
    obtain rfl := Option.some.inj (Option.some.inj hvalue')
    exact ⟨by rw [hformat], h⟩
  | none =>
    refine ⟨rfl, fun parts format hformat => ?_⟩
    rw [lookup_cons] at hformat
    split at hformat
    · rename_i heq
      obtain rfl := Option.some.inj hformat
      exact ⟨value, heq ▸ hknown, rfl⟩
    · exact h parts format hformat

/-- Telling a type reads no manifest. -/
theorem manifests_typeOf (dir : Path) (manifest? : Option (Path × Value)) (c : Cache) :
    (typeOf dir manifest? c).2.manifests = c.manifests := by
  cases manifest? with
  | none => rfl
  | some pair =>
    dsimp only [typeOf]
    cases c.types.lookup (pair.1.parent?.getD dir).parts <;> rfl

/-- The type of a file is told by the manifest that is found for it at the same moment. -/
theorem Coherent.packageType_eq (h : Coherent c) (file : Path) :
    (packageType t c file).1 = (nearest t c (packageDir file)).1.map formatOf ∧
      Extends c (packageType t c file).2 ∧ Coherent (packageType t c file).2 := by
  obtain ⟨hlearns, hfound⟩ := learns_nearestAmong (t := t) (packageDir file).ancestors c
  change Learns c (nearest t c (packageDir file)).2 at hlearns
  change ∀ p value, (nearest t c (packageDir file)).1 = .ok (some (p, value)) → _ at hfound
  rw [congrFun (Cache.packageType_eq (t := t) file) c, settle]
  rcases hnearest : nearest t c (packageDir file) with ⟨f | _ | ⟨p, value⟩, after⟩ <;>
    rw [hnearest] at hlearns
  · exact ⟨rfl, hlearns.manifests, h.of_learns hlearns⟩
  · exact ⟨rfl, hlearns.manifests, h.of_learns hlearns⟩
  · obtain ⟨⟨below, rfl⟩, hknown⟩ := hfound p value (by rw [hnearest])
    rw [nearest] at hnearest
    rw [hnearest] at hknown
    obtain ⟨htype, hcoherent⟩ := (h.of_learns hlearns).typeOf_eq (packageDir file) hknown
    have hmanifests := manifests_typeOf (packageDir file)
      (some (below.join "package.json", value)) after
    refine ⟨htype, hlearns.manifests.trans fun parts known hparts => ?_, hcoherent⟩
    exact (congrArg (List.lookup parts) hmanifests).trans hparts

end Cache

/-- What happens: the cache is asked, or the files are changed to any others. -/
inductive Event where
  | read (manifest : Path)
  | nearest (dir : Path)
  | packageType (file : Path)
  | change (files : Files.Tree)

/-- The files, and what is known of them. -/
structure Moment where
  files : Files.Tree
  cache : Cache := {}

namespace Moment

open Cache (Coherent Extends coherent_empty)

variable {m : Moment}

/-- What reading a manifest gives at a moment. -/
def read (m : Moment) (manifest : Path) : Except Fault (Option Value) :=
  (Cache.read m.files m.cache manifest).map (·.1)

/-- The nearest manifest at a moment. -/
def nearest (m : Moment) (dir : Path) : Except Fault (Option (Path × Value)) :=
  (Cache.nearest m.files m.cache dir).1

/-- The type of a file at a moment. -/
def packageType (m : Moment) (file : Path) : Except Fault ModuleFormat :=
  (Cache.packageType m.files m.cache file).1

/-- The moment after an event. The cache is not told of changes. -/
def step (m : Moment) : Event → Moment
  | .read manifest =>
    match Cache.read m.files m.cache manifest with
    | .ok (_, cache) => { m with cache }
    | .error _ => m
  | .nearest dir => { m with cache := (Cache.nearest m.files m.cache dir).2 }
  | .packageType file => { m with cache := (Cache.packageType m.files m.cache file).2 }
  | .change files => { m with files }

/-- The moment after a history. -/
def run (m : Moment) (events : List Event) : Moment := events.foldl step m

theorem read_eq (m : Moment) (p : Path) : m.read p = (Cache.reading m.files p m.cache).1 := by
  rw [read, Cache.reading]
  cases Cache.read m.files m.cache p <;> rfl

theorem cache_step_read (m : Moment) (p : Path) :
    (m.step (.read p)).cache = (Cache.reading m.files p m.cache).2 := by
  rw [step, Cache.reading]
  cases Cache.read m.files m.cache p <;> rfl

/-- An event adds to what is known, and leaves it coherent. -/
theorem step_keeps (h : Coherent m.cache) (event : Event) :
    Extends m.cache (m.step event).cache ∧ Coherent (m.step event).cache := by
  cases event with
  | read p =>
    rw [cache_step_read]
    have hlearns := Cache.learns_reading (t := m.files) p m.cache
    exact ⟨hlearns.manifests, h.of_learns hlearns⟩
  | nearest dir =>
    have hlearns := (Cache.learns_nearestAmong (t := m.files) dir.ancestors m.cache).1
    exact ⟨hlearns.manifests, h.of_learns hlearns⟩
  | packageType file => exact (h.packageType_eq file).2
  | change files => exact ⟨.refl _, h⟩

/-- A history forgets no manifest and keeps the types in accord with the manifests. -/
theorem run_keeps (h : Coherent m.cache) (events : List Event) :
    Extends m.cache (m.run events).cache ∧ Coherent (m.run events).cache := by
  induction events generalizing m with
  | nil => exact ⟨.refl _, h⟩
  | cons event rest ih =>
    obtain ⟨hextends, hcoherent⟩ := step_keeps h event
    obtain ⟨hextends', hcoherent'⟩ := ih hcoherent
    exact ⟨hextends.trans hextends', hcoherent'⟩

/-- Over every history of questions and changes, what was once read or found is read or found again,
and the type that is told for a file is the one that the manifest declares that is found for it at
that moment. -/
theorem run_answers (files : Files.Tree) (before between : List Event) :
    (∀ p value, (run ⟨files, {}⟩ before).read p = .ok value →
      (run ⟨files, {}⟩ (before ++ .read p :: between)).read p = .ok value) ∧
    (∀ dir manifest?, (run ⟨files, {}⟩ before).nearest dir = .ok manifest? →
      (run ⟨files, {}⟩ (before ++ .nearest dir :: between)).nearest dir = .ok manifest?) ∧
    ∀ file, (run ⟨files, {}⟩ before).packageType file =
      ((run ⟨files, {}⟩ before).nearest (Cache.packageDir file)).map Cache.formatOf := by
  have hcoherent : Coherent (run ⟨files, {}⟩ before).cache := (run_keeps coherent_empty before).2
  have hlater (event : Event) : ∃ later, run ⟨files, {}⟩ (before ++ event :: between) = later ∧
      Extends ((run ⟨files, {}⟩ before).step event).cache later.cache := by
    refine ⟨(((run ⟨files, {}⟩ before).step event).run between), ?_, ?_⟩
    · rw [run, List.foldl_append]
      rfl
    · exact (run_keeps (step_keeps hcoherent event).2 between).1
  generalize run ⟨files, {}⟩ before = m at hcoherent hlater
  refine ⟨fun p value h => ?_, fun dir manifest? h => ?_,
    fun file => (hcoherent.packageType_eq file).1⟩
  · obtain ⟨later, hrun, hextends⟩ := hlater (.read p)
    rw [read_eq] at h
    have hknown := (Cache.reading_ok (Prod.ext h rfl)).2
    rw [cache_step_read] at hextends
    rw [hrun, read_eq, Cache.reading_of_known (hextends _ _ hknown)]
  · obtain ⟨later, hrun, hextends⟩ := hlater (.nearest dir)
    have hagain := (Cache.nearestAmong_again (Prod.ext h rfl)).2 later.files later.cache hextends
    rw [hrun]
    exact congrArg Prod.fst hagain

/-- A manifest at the root that declares modules. -/
def moduleRoot : Files.Tree :=
  ⟨[(["package.json"], .ofText "\x7b\x22type\x22:\x22module\x22\x7d")]⟩

/-- A file is a module as long as its manifest is known to say so, even when that is gone. -/
theorem run_answers_removed : ∃ value, Cache.declaredFormat value = .module ∧
    (run ⟨moduleRoot, {}⟩ [.read ⟨"/package.json"⟩, .change {}]).read ⟨"/package.json"⟩ =
      .ok (some value) ∧
    (run ⟨moduleRoot, {}⟩ [.nearest ⟨"/"⟩, .change {}]).nearest ⟨"/"⟩ =
      .ok (some (⟨"/package.json"⟩, value)) ∧
    (run ⟨moduleRoot, {}⟩ [.nearest ⟨"/"⟩, .change {}]).packageType ⟨"/a.js"⟩ = .ok .module := by
  have hread : ∃ value, Cache.declaredFormat value = .module ∧
      (run ⟨moduleRoot, {}⟩ []).read ⟨"/package.json"⟩ = .ok (some value) := by
    have hformat : ((run ⟨moduleRoot, {}⟩ []).read ⟨"/package.json"⟩).toOption.map
        (Option.map Cache.declaredFormat) = some (some .module) := by decide +kernel
    rcases hread : (run ⟨moduleRoot, {}⟩ []).read ⟨"/package.json"⟩ with f | _ | value <;>
      rw [hread] at hformat
    · cases hformat
    · cases hformat
    · exact ⟨value, Option.some.inj (Option.some.inj hformat), rfl⟩
  obtain ⟨value, hformat, hread⟩ := hread
  have hnearest : (run ⟨moduleRoot, {}⟩ []).nearest ⟨"/"⟩ =
      .ok (some (⟨"/package.json"⟩, value)) := by
    have hancestors : Path.ancestors ⟨"/"⟩ = [⟨"/"⟩] := by decide
    have hmanifest : Path.join ⟨"/"⟩ "package.json" = ⟨"/package.json"⟩ := by decide
    rw [read_eq] at hread
    change (Cache.nearestAmong moduleRoot (Path.ancestors ⟨"/"⟩) {}).1 = _
    rw [hancestors, Cache.nearestAmong_cons (by decide), settle, hmanifest]
    rcases hrun : Cache.reading moduleRoot ⟨"/package.json"⟩ {} with ⟨result, after⟩
    obtain rfl : result = .ok (some value) := (congrArg Prod.fst hrun).symm.trans hread
    rfl
  have hnearest' := (run_answers moduleRoot [] [.change {}]).2.1 _ _ hnearest
  refine ⟨value, hformat, (run_answers moduleRoot [] [.change {}]).1 _ _ hread, hnearest', ?_⟩
  have hdir : Cache.packageDir ⟨"/a.js"⟩ = ⟨"/"⟩ := by decide
  rw [List.nil_append] at hnearest'
  rw [(run_answers moduleRoot [.nearest ⟨"/"⟩, .change {}] []).2.2, hdir, hnearest']
  exact congrArg Except.ok hformat

end Moment

end ScriptModules.Package

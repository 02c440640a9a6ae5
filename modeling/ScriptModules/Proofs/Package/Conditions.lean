import ScriptModules.Package.Targets

/-!
# Targets under conditions

Conditions leave some of the texts that a target holds, in the order in which these are written,
and the target comes to the first of them that does not step up. A member without a text is passed
over, be it null or an object whose conditions all fail.
-/

namespace ScriptModules.Package

open Json (Value Members)

variable {conditions conditions' : List String} {captured? : Option (List Char)}
  {members before after : List (String × Value)} {key : String}

mutual

/-- The texts of a target that the conditions leave. -/
def textsLeft (conditions : List String) : Value → List String
  | .string s => [s]
  | .array items => textsLeftOfItems conditions items
  | .object members => textsLeftOfMembers conditions members
  | .null | .bool _ | .number _ => []

/-- The texts of several alternatives. -/
def textsLeftOfItems (conditions : List String) : List Value → List String
  | [] => []
  | v :: r => textsLeft conditions v ++ textsLeftOfItems conditions r

/-- The texts of the members whose conditions hold. -/
def textsLeftOfMembers (conditions : List String) : List (String × Value) → List String
  | [] => []
  | (key, v) :: r =>
    if isActive conditions key then textsLeft conditions v ++ textsLeftOfMembers conditions r
    else textsLeftOfMembers conditions r

end

/-- A text with what stands for its stars, if anything does. -/
def filled (captured? : Option (List Char)) (s : String) : String :=
  match captured? with
  | some captured => String.ofList (fillStars captured s.toList)
  | none => s

/-- What a target comes to: the first of the texts left that does not step up when it is filled. -/
def evaluation (conditions : List String) (captured? : Option (List Char)) (v : Value) :
    Option String :=
  ((textsLeft conditions v).map (filled captured?)).find? fun s => !stepsUp s.toList

/-- A text comes to itself with its stars filled, unless it steps up. -/
theorem fillTarget?_eq (s : String) :
    fillTarget? captured? s = ([s].map (filled captured?)).find? fun s => !stepsUp s.toList := by
  unfold fillTarget? filled
  cases captured? with
  | none => cases h : stepsUp s.toList <;> simp [h]
  | some captured => cases h : stepsUp (fillStars captured s.toList) <;> simp [h]

mutual

/-- Looking for a target ends with the first text that is left. -/
theorem target?_eq_evaluation : ∀ v : Value,
    target? conditions captured? v = evaluation conditions captured? v
  | .string s => by
    rw [target?, fillTarget?_eq]
    rfl
  | .array items => by rw [target?, firstTarget?_eq items]; rfl
  | .object members => by rw [target?, activeTarget?_eq members]; rfl
  | .null | .bool _ | .number _ => by rw [target?]; rfl

/-- Alternatives come to the first text left in any of them that does not step up. -/
theorem firstTarget?_eq : ∀ items : List Value,
    firstTarget? conditions captured? items =
      ((textsLeftOfItems conditions items).map (filled captured?)).find? fun s => !stepsUp s.toList
  | [] => rfl
  | v :: rest => by
    rw [firstTarget?, textsLeftOfItems, List.map_append, List.find?_append, firstTarget?_eq rest,
      target?_eq_evaluation v, evaluation]

/-- Members come to the first text left in any of them that does not step up. -/
theorem activeTarget?_eq : ∀ members : List (String × Value),
    activeTarget? conditions captured? members =
      ((textsLeftOfMembers conditions members).map (filled captured?)).find?
        fun s => !stepsUp s.toList
  | [] => rfl
  | (key, v) :: rest => by
    rw [activeTarget?, textsLeftOfMembers, activeTarget?_eq rest]
    split
    · rw [List.map_append, List.find?_append, target?_eq_evaluation v, evaluation]
    · rfl

end

/-- What a target comes to does not step up. -/
theorem stepsUp_of_evaluation {v : Value} {target : String}
    (h : evaluation conditions captured? v = some target) : stepsUp target.toList = false := by
  simpa using List.find?_some h

/-- A text steps up just when two dots stand alone between its slashes. -/
theorem stepsUp_eq_false_iff {cs : List Char} :
    stepsUp cs = false ↔ ['.', '.'] ∉ Text.splitAt '/' cs := by
  rw [stepsUp, List.contains_eq_mem, decide_eq_false_iff_not]

mutual

/-- The names of the conditions in a target, at every depth. -/
def conditionNames : Value → List String
  | .array items => conditionNamesOfItems items
  | .object members => conditionNamesOfMembers members
  | .string _ | .null | .bool _ | .number _ => []

/-- The names of the conditions in several alternatives. -/
def conditionNamesOfItems : List Value → List String
  | [] => []
  | v :: r => conditionNames v ++ conditionNamesOfItems r

/-- The names of members and of the conditions in their targets. -/
def conditionNamesOfMembers : List (String × Value) → List String
  | [] => []
  | (key, v) :: r => key :: (conditionNames v ++ conditionNamesOfMembers r)

end

/-- Conditions that agree on some names. -/
def AgreeOn (names conditions conditions' : List String) : Prop :=
  ∀ name ∈ names, name ∈ conditions ↔ name ∈ conditions'

/-- Conditions that agree on two lists of names agree on each. -/
theorem AgreeOn.append {names names' : List String}
    (h : AgreeOn (names ++ names') conditions conditions') :
    AgreeOn names conditions conditions' ∧ AgreeOn names' conditions conditions' :=
  List.forall_mem_append.mp h

/-- A key is active under conditions that agree on it, or under none of them. -/
theorem AgreeOn.isActive {names : List String}
    (h : AgreeOn (key :: names) conditions conditions') :
    isActive conditions key = isActive conditions' key := by
  have hkey := h key List.mem_cons_self
  simp only [Package.isActive, List.contains_eq_mem, hkey]

mutual

/-- Conditions that agree on the names in a target leave the same of it. -/
theorem textsLeft_congr : ∀ {v : Value}, AgreeOn (conditionNames v) conditions conditions' →
    textsLeft conditions v = textsLeft conditions' v
  | .string _, _ => rfl
  | .array _, h => textsLeftOfItems_congr h
  | .object _, h => textsLeftOfMembers_congr h
  | .null, _ | .bool _, _ | .number _, _ => rfl

theorem textsLeftOfItems_congr : ∀ {items : List Value},
    AgreeOn (conditionNamesOfItems items) conditions conditions' →
    textsLeftOfItems conditions items = textsLeftOfItems conditions' items
  | [], _ => rfl
  | v :: rest, h => by
    obtain ⟨hv, hrest⟩ := h.append
    rw [textsLeftOfItems, textsLeftOfItems, textsLeft_congr hv, textsLeftOfItems_congr hrest]

theorem textsLeftOfMembers_congr : ∀ {members : List (String × Value)},
    AgreeOn (conditionNamesOfMembers members) conditions conditions' →
    textsLeftOfMembers conditions members = textsLeftOfMembers conditions' members
  | [], _ => rfl
  | (key, v) :: rest, h => by
    obtain ⟨hv, hrest⟩ := AgreeOn.append fun name hname => h name (List.mem_cons_of_mem _ hname)
    rw [textsLeftOfMembers, textsLeftOfMembers, h.isActive, textsLeft_congr hv,
      textsLeftOfMembers_congr hrest]

end

/-- A target comes to the same under conditions that agree on its names. -/
theorem evaluation_congr {v : Value} (h : AgreeOn (conditionNames v) conditions conditions') :
    evaluation conditions captured? v = evaluation conditions' captured? v := by
  rw [evaluation, evaluation, textsLeft_congr h]

/-- The first member that is active and gives something is taken. -/
theorem activeTarget?_cons (key : String) (v : Value) (rest : List (String × Value)) :
    activeTarget? conditions captured? ((key, v) :: rest) =
      (if isActive conditions key then target? conditions captured? v else none).or
        (activeTarget? conditions captured? rest) := by
  rw [activeTarget?]
  split <;> simp

/-- Members in a row give what the first of them give, or else what the others do. -/
theorem activeTarget?_append :
    activeTarget? conditions captured? (before ++ after) =
      (activeTarget? conditions captured? before).or
        (activeTarget? conditions captured? after) := by
  induction before with
  | nil => rfl
  | cons m rest ih =>
    obtain ⟨key, v⟩ := m
    rw [List.cons_append, activeTarget?_cons, activeTarget?_cons, ih, Option.or_assoc]

/-- Members give nothing if none that is active does. -/
theorem activeTarget?_eq_none_iff :
    activeTarget? conditions captured? members = none ↔
      ∀ m ∈ members, isActive conditions m.1 = true → target? conditions captured? m.2 = none := by
  induction members with
  | nil => simp [activeTarget?]
  | cons m rest ih =>
    obtain ⟨key, v⟩ := m
    rw [activeTarget?_cons, Option.or_eq_none_iff, ih, List.forall_mem_cons]
    cases isActive conditions key <;> simp

/-- A null does not exclude: an object whose first member to hold is null comes to what the members
after it come to, and it comes to nothing exactly when none of those that hold has a target. -/
theorem target?_past_null (hbefore : ∀ m ∈ before, isActive conditions m.1 = false)
    (key : String) (after : List (String × Value)) (captured? : Option (List Char)) :
    target? conditions captured? (.object (before ++ (key, .null) :: after)) =
        target? conditions captured? (.object after) ∧
      (target? conditions captured? (.object (before ++ (key, .null) :: after)) = none ↔
        ∀ m ∈ after, isActive conditions m.1 = true → target? conditions captured? m.2 = none) := by
  have hnone : activeTarget? conditions captured? before = none :=
    activeTarget?_eq_none_iff.mpr fun m hm hactive => by simp [hbefore m hm] at hactive
  have hpast : target? conditions captured? (.object (before ++ (key, .null) :: after)) =
      target? conditions captured? (.object after) := by
    rw [target?, target?, activeTarget?_append, hnone, Option.none_or, activeTarget?_cons]
    simp [target?]
  exact ⟨hpast, by rw [hpast, target?, activeTarget?_eq_none_iff]⟩

/-- What a null excludes stays excluded where no condition after it holds. -/
theorem target?_past_null_require :
    (∀ m ∈ [("browser", Value.string "./b.js")], isActive ["node"] m.1 = false) ∧
      target? ["node"] none (.object ([("browser", .string "./b.js")] ++
        ("node", .null) :: [("require", .string "./r.cjs")])) = none := by
  have hbefore : ∀ m ∈ [("browser", Value.string "./b.js")], isActive ["node"] m.1 = false := by
    simp [isActive]
  refine ⟨hbefore, (target?_past_null hbefore "node" _ none).2.mpr ?_⟩
  simp [isActive]

/-- What a null excludes is exported under a later condition. -/
theorem not_forall_excluded :
    ¬ ∀ (conditions : List String) (captured? : Option (List Char))
        (before after : List (String × Value)) (key : String),
      (∀ m ∈ before, isActive conditions m.1 = false) → isActive conditions key = true →
        target? conditions captured? (.object (before ++ (key, .null) :: after)) = none := by
  intro h
  have hnone := h ["node"] none [] [("default", .string "./x.js")] "node" (by simp) (by decide)
  exact absurd hnone (by decide +kernel)

end ScriptModules.Package

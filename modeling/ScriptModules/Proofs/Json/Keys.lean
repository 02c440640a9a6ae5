import Mathlib.Data.List.Induction
import Mathlib.Data.List.Nodup
import ScriptModules.Json.Reader
import ScriptModules.Proofs.Except

/-!
# Keys of objects

A key that is written again takes the place of the one before it, so the objects of a document that
was read have every key once. Members that are inserted into others win over them key by key.
-/

namespace ScriptModules

/-- One more element is kept if it is the first of its kind. -/
theorem eraseDups_concat {α : Type} [BEq α] [LawfulBEq α] (as : List α) (a : α) :
    (as ++ [a]).eraseDups = if a ∈ as then as.eraseDups else as.eraseDups ++ [a] := by
  rw [List.eraseDups_append]
  by_cases h : a ∈ as
  · simp [List.removeAll, h]
  · simp [List.removeAll, h, List.eraseDups_cons]

/-- Without repetitions every element is there once. -/
theorem nodup_eraseDups {α : Type} [BEq α] [LawfulBEq α] (as : List α) : as.eraseDups.Nodup := by
  induction as using List.reverseRecOn with
  | nil => simp
  | append_singleton as a ih =>
    rw [eraseDups_concat]
    split
    · exact ih
    · rename_i hnew
      rw [← List.concat_eq_append]
      exact ih.concat fun hmem => hnew (List.mem_eraseDups.mp hmem)

namespace Json

namespace Members

variable {ms rest above below : Members} {key other : String} {value : Value}

/-- The keys of an object. -/
def keys (ms : Members) : List String := List.map Prod.fst ms

theorem keys_cons (key : String) (value : Value) (ms : Members) :
    keys ((key, value) :: ms) = key :: ms.keys := rfl

/-- The first member with a key gives its value. -/
theorem get?_cons (other key : String) (value : Value) (rest : Members) :
    get? other ((key, value) :: rest) = if other = key then some value else get? other rest := by
  rw [get?, get?, List.lookup_cons]
  by_cases h : other = key
  · simp [h]
  · rw [if_neg h, beq_eq_false_iff_ne.mpr h]

/-- With every key once, a key has the value that it stands with. -/
theorem get?_eq_some_iff (h : ms.keys.Nodup) : get? key ms = some value ↔ (key, value) ∈ ms := by
  induction ms with
  | nil => simp [get?]
  | cons m rest ih =>
    obtain ⟨k, v⟩ := m
    obtain ⟨hk, hrest⟩ := List.nodup_cons.mp h
    rw [get?_cons, List.mem_cons, Prod.mk.injEq]
    by_cases hkey : key = k
    · subst hkey
      have hnot : (key, value) ∉ rest := fun hmem =>
        hk (List.mem_map.mpr ⟨_, hmem, rfl⟩)
      simp [hnot, eq_comm]
    · simp [hkey, ih hrest]

/-- With every key once, the order of the members does not matter to the value of a key. -/
theorem get?_perm {ms' : Members} (h : ms.keys.Nodup) (hperm : ms'.Perm ms) (key : String) :
    get? key ms' = get? key ms := by
  have h' : ms'.keys.Nodup := (hperm.map Prod.fst).nodup_iff.mpr h
  ext value
  rw [get?_eq_some_iff h, get?_eq_some_iff h', hperm.mem_iff]

/-- Inserting goes on to the first member with the key. -/
theorem insert_cons (key other : String) (value old : Value) (rest : Members) :
    insert key value ((other, old) :: rest) =
      if other = key then (other, value) :: rest else (other, old) :: insert key value rest := by
  rw [insert]
  by_cases h : other = key <;> simp [h]

/-- A key that is inserted gives the new value, and the others give what they gave. -/
theorem get?_insert (other key : String) (value : Value) (ms : Members) :
    get? other (insert key value ms) = if other = key then some value else get? other ms := by
  induction ms with
  | nil => exact get?_cons other key value []
  | cons m rest ih =>
    obtain ⟨k, v⟩ := m
    rw [insert_cons]
    by_cases hk : k = key
    · subst hk
      rw [if_pos rfl, get?_cons, get?_cons]
      split <;> rfl
    · rw [if_neg hk, get?_cons, get?_cons, ih]
      by_cases h : other = k
      · subst h
        simp [hk]
      · simp [h]

/-- What is in an object after an insertion was inserted or was there before. -/
theorem mem_insert {m : String × Value} (h : m ∈ insert key value ms) :
    m = (key, value) ∨ m ∈ ms := by
  induction ms with
  | nil => exact Or.inl (List.mem_singleton.mp h)
  | cons m' rest ih =>
    obtain ⟨k, v⟩ := m'
    rw [insert_cons] at h
    split at h
    · rename_i hkey
      rcases List.mem_cons.mp h with rfl | h
      · exact Or.inl (by rw [hkey])
      · exact Or.inr (List.mem_cons_of_mem _ h)
    · rcases List.mem_cons.mp h with rfl | h
      · exact Or.inr List.mem_cons_self
      · exact (ih h).imp_right (List.mem_cons_of_mem _)

/-- A new key comes last, and one that is there already keeps its place. -/
theorem keys_insert (key : String) (value : Value) (ms : Members) :
    (insert key value ms).keys = if key ∈ ms.keys then ms.keys else ms.keys ++ [key] := by
  induction ms with
  | nil => rfl
  | cons m rest ih =>
    obtain ⟨k, v⟩ := m
    rw [insert_cons, keys_cons]
    by_cases hkey : k = key
    · simp [hkey, keys_cons]
    · rw [if_neg hkey, keys_cons, ih]
      simp only [List.mem_cons, Ne.symm hkey, false_or]
      split <;> rfl

/-- Inserting a member keeps keys apart. -/
theorem nodup_keys_insert (h : ms.keys.Nodup) (key : String) (value : Value) :
    (insert key value ms).keys.Nodup := by
  rw [keys_insert]
  split
  · exact h
  · rename_i hnew
    rw [← List.concat_eq_append]
    exact h.concat hnew

/-- Insert all members of an object into another. -/
def insertAll (above below : Members) : Members :=
  above.foldl (fun ms (k, v) => insert k v ms) below

/-- Members that are inserted win over those before them. -/
theorem get?_insertAll (h : above.keys.Nodup) (below : Members) (key : String) :
    get? key (above.insertAll below) = (get? key above).or (get? key below) := by
  induction above generalizing below with
  | nil => rfl
  | cons m rest ih =>
    obtain ⟨k, v⟩ := m
    obtain ⟨hk, hrest⟩ := List.nodup_cons.mp h
    have hstep : insertAll ((k, v) :: rest) below = insertAll rest (insert k v below) := rfl
    rw [hstep, ih hrest, get?_insert, get?_cons]
    by_cases hkey : key = k
    · subst hkey
      have hnone : get? key rest = none := by
        refine List.lookup_eq_none_iff.mpr fun m hm => bne_iff_ne.mpr fun heq => hk ?_
        exact List.mem_map.mpr ⟨m, hm, heq.symm⟩
      simp [hnone]
    · simp [hkey]

/-- Inserting members keeps every key there once. -/
theorem nodup_keys_insertAll (above : Members) (h : below.keys.Nodup) :
    (above.insertAll below).keys.Nodup := by
  induction above generalizing below with
  | nil => exact h
  | cons m rest ih => exact ih (nodup_keys_insert h m.1 m.2)

end Members

/-- A value whose objects have every key once. -/
inductive Distinct : Value → Prop
  | null : Distinct .null
  | bool (b : Bool) : Distinct (.bool b)
  | number (n : Number) : Distinct (.number n)
  | string (s : String) : Distinct (.string s)
  | array {items : List Value} (h : ∀ v ∈ items, Distinct v) : Distinct (.array items)
  | object {ms : List (String × Value)} (hkeys : (Members.keys ms).Nodup)
    (h : ∀ m ∈ ms, Distinct m.2) : Distinct (.object ms)

variable {care : Care}

/-- What holds of every item that is read holds of all items of an array. -/
theorem forall_of_readItems {α : Type} {P : α → Prop} {item : Place → Except Fault (α × Place)}
    (hitem : ∀ p x q, item p = .ok (x, q) → P x) {fuel : Nat} {first : Bool} {p q : Place}
    {xs : List α} (h : readItems care item fuel first p = .ok (xs, q)) : ∀ x ∈ xs, P x := by
  induction fuel generalizing first p xs q with
  | zero => cases h
  | succ fuel ih =>
    obtain ⟨next, -, h⟩ := exists_of_bind_eq_ok h
    cases next with
    | close p =>
      obtain rfl := congrArg Prod.fst (Except.ok.inj h)
      exact fun _ hx => by cases hx
    | item p =>
      obtain ⟨⟨x, p'⟩, hx, h⟩ := exists_of_bind_eq_ok h
      obtain ⟨⟨rest, p''⟩, hrest, h⟩ := exists_of_bind_eq_ok h
      obtain rfl := congrArg Prod.fst (Except.ok.inj h)
      exact List.forall_mem_cons.mpr ⟨hitem _ _ _ hx, ih hrest⟩

/-- What every step of reading an object keeps, reading the object keeps. -/
theorem of_readMembers {σ : Type} {P : σ → Prop}
    {step : σ → String → Place → Except Fault (σ × Place)}
    (hstep : ∀ s key p s' q, P s → step s key p = .ok (s', q) → P s') {fuel : Nat} {first : Bool}
    {s s' : σ} {p q : Place} (hs : P s)
    (h : readMembers care step fuel first s p = .ok (s', q)) : P s' := by
  induction fuel generalizing first s p with
  | zero => cases h
  | succ fuel ih =>
    have hmore (p : Place) (h : (readText care p.next >>= fun key => step s key.1 key.2 >>=
        fun after => readMembers care step fuel false after.1 after.2) = .ok (s', q)) : P s' := by
      obtain ⟨⟨key, p⟩, -, h⟩ := exists_of_bind_eq_ok h
      obtain ⟨⟨between, p⟩, hbetween, h⟩ := exists_of_bind_eq_ok h
      exact ih (hstep _ _ _ _ _ hs hbetween) h
    rw [readMembers] at h
    dsimp only at h
    split at h
    · cases h
    · split at h
      · obtain rfl := congrArg Prod.fst (Except.ok.inj h)
        exact hs
      · split at h
        · split at h
          · exact hmore _ h
          · cases h
        · split at h
          · split at h
            · cases h
            · split at h
              · exact hmore _ h
              · split at h <;> cases h
          · cases h

/-- An object without members has no key twice. -/
theorem distinct_empty : Distinct (.object []) := .object List.nodup_nil (by simp)

/-- Inserting a value of distinct keys keeps the keys of an object distinct. -/
theorem Distinct.insert {ms : Members} (h : Distinct (.object ms)) (key : String) {value : Value}
    (hvalue : Distinct value) : Distinct (.object (ms.insert key value)) := by
  cases h with
  | object hkeys hvalues =>
    refine .object (Members.nodup_keys_insert hkeys key value) fun m hm => ?_
    rcases Members.mem_insert hm with rfl | hm
    · exact hvalue
    · exact hvalues m hm

/-- A reader that makes a value out of something has distinct keys if all such values do. -/
theorem distinct_of_map {α : Type} {read : Except Fault α} {make : α → Value × Place} {v : Value}
    {q : Place} (hmake : ∀ x, read = .ok x → Distinct (make x).1)
    (h : read.map make = .ok (v, q)) : Distinct v := by
  obtain ⟨x, hread, h⟩ := exists_of_map_eq_ok h
  obtain rfl : (make x).1 = v := congrArg Prod.fst h
  exact hmake x hread

/-- What either branch gives is told branch by branch. -/
theorem of_ite {α : Type} {c : Prop} [Decidable c] {x y z : α} {P : Prop}
    (h : (if c then x else y) = z) (hx : x = z → P) (hy : y = z → P) : P := by
  split at h
  · exact hx h
  · exact hy h

/-- The values of a document that is read have distinct keys, at every depth. -/
theorem distinct_of_readValue {depth : Nat} {p q : Place} {v : Value}
    (h : readValue care depth p = .ok (v, q)) : Distinct v := by
  induction depth generalizing p q v with
  | zero => cases h
  | succ depth ih =>
    have hstep (ms : Members) (key : String) (p : Place) (ms' : Members) (q : Place)
        (hms : Distinct (.object ms))
        (h : (readColon p >>= fun p => readValue care depth p >>= fun member =>
          pure (ms.insert key member.1, member.2)) = .ok (ms', q)) : Distinct (.object ms') := by
      obtain ⟨p, -, h⟩ := exists_of_bind_eq_ok h
      obtain ⟨⟨v, p⟩, hv, h⟩ := exists_of_bind_eq_ok h
      obtain rfl := congrArg Prod.fst (Except.ok.inj h)
      exact hms.insert key (ih hv)
    rw [readValue] at h
    dsimp only at h
    split at h
    · cases h
    · refine of_ite h (distinct_of_map fun _ _ => .null) fun h => ?_
      refine of_ite h (distinct_of_map fun _ _ => .bool true) fun h => ?_
      refine of_ite h (distinct_of_map fun _ _ => .bool false) fun h => ?_
      refine of_ite h ?negative fun h => of_ite h ?digit fun h => ?_
      case negative | digit =>
        intro h
        cases care with
        | keep => exact distinct_of_map (fun x _ => .number x.1) h
        | skim => exact distinct_of_map (fun _ _ => .null) h
      refine of_ite h (distinct_of_map fun x _ => .string x.1) fun h => ?_
      refine of_ite h (fun h => of_ite h (fun h => by cases h) ?_) fun h => ?_
      · exact distinct_of_map fun x hx => .array (forall_of_readItems (fun _ _ _ => ih) hx)
      refine of_ite h (fun h => of_ite h (fun h => by cases h) ?_) fun h => by cases h
      exact distinct_of_map fun x hx => of_readMembers (P := fun ms => Distinct (.object ms))
        hstep distinct_empty hx

/-- No key is there twice in a document that is read. -/
theorem distinct_of_parse {s : String} {v : Value} (h : parse s = .ok v) : Distinct v := by
  obtain ⟨⟨v, p⟩, hv, h⟩ := exists_of_bind_eq_ok h
  obtain ⟨_, -, h⟩ := exists_of_bind_eq_ok h
  obtain rfl := Except.ok.inj h
  exact distinct_of_readValue hv

/-- An object inside a document of distinct keys has distinct keys. -/
theorem Distinct.nodup_keys {ms : Members} (h : Distinct (.object ms)) : ms.keys.Nodup := by
  cases h with
  | object hkeys _ => exact hkeys

/-- The value of a key has distinct keys if the object does. -/
theorem Distinct.get? {v member : Value} {key : String} (h : Distinct v)
    (hmember : v.get? key = some member) : Distinct member := by
  cases h with
  | object _ hvalues =>
    obtain ⟨before, after, rfl, -⟩ := List.lookup_eq_some_iff.mp hmember
    exact hvalues (key, member) (List.mem_append_right _ List.mem_cons_self)
  | _ => cases hmember

end Json

end ScriptModules

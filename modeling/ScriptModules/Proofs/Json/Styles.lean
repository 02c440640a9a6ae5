import ScriptModules.Proofs.Json.Notation

/-!
# Styles of commas

Taking out the commas before closing brackets turns the tokens of a value in the loose style into
those of the same value in the strict style, and nothing else into these. What it takes out is a
comma behind the last item of a container, or the only token in it; a text without the latter is in
the style of trailing commas.
-/

namespace ScriptModules.Json

variable {ts us : List Token}

/-- A closing bracket comes first. -/
def closesFirst : List Token → Bool
  | .mark (.closing _) :: _ => true
  | _ => false

/-- What comes first is told by the first tokens. -/
theorem closesFirst_cons_append (t : Token) (ts us : List Token) :
    closesFirst (t :: ts ++ us) = closesFirst (t :: ts) := by
  rcases t with (_ | _ | _ | _) | _ | _ <;> rfl

/-- The first tokens become the second ones when commas before closing brackets are taken out. -/
inductive Trims : List Token → List Token → Prop
  | nil : Trims [] []
  | keep {t : Token} {ts us : List Token} (ht : t = .mark .comma → closesFirst ts = false)
    (h : Trims ts us) : Trims (t :: ts) (t :: us)
  | drop (k : Container) {ts us : List Token} (h : Trims ts us) :
    Trims (.mark .comma :: .mark (.closing k) :: ts) (.mark (.closing k) :: us)

namespace Trims

variable {a a' : List Token} {t : Token} {k : Container}

/-- A closing bracket stays. -/
theorem closing (h : Trims ts us) : Trims (.mark (.closing k) :: ts) (.mark (.closing k) :: us) :=
  .keep (by simp) h

/-- Nothing is taken out between two texts when the first does not end with a comma. -/
theorem append (ha : EndsWell a) (h : Trims a a') (h' : Trims ts us) :
    Trims (a ++ ts) (a' ++ us) := by
  induction h with
  | nil => exact h'
  | @keep t a a' ht h ih =>
    cases a with
    | nil =>
      cases h
      refine .keep ?_ h'
      rintro rfl
      exact absurd rfl ha
    | cons u a =>
      exact .keep (fun hcomma => (closesFirst_cons_append u a ts).trans (ht hcomma))
        (ih (by simpa [EndsWell] using ha))
  | @drop k a a' h ih =>
    cases a with
    | nil =>
      cases h
      exact .drop k h'
    | cons u a => exact .drop k (ih (by simpa [EndsWell] using ha))

/-- Tokens that are left in two parts came from two parts. -/
theorem exists_of_append (h : Trims ts (a ++ a')) :
    ∃ b b', ts = b ++ b' ∧ Trims b a ∧ Trims b' a' := by
  induction a generalizing ts with
  | nil => exact ⟨[], ts, rfl, .nil, h⟩
  | cons t a ih =>
    cases h with
    | @keep _ ts _ ht h =>
      obtain ⟨b, b', rfl, hb, hb'⟩ := ih h
      refine ⟨t :: b, b', rfl, .keep (fun hcomma => ?_) hb, hb'⟩
      cases b with
      | nil => rfl
      | cons u b => exact (closesFirst_cons_append u b b').symm.trans (ht hcomma)
    | @drop k ts _ h =>
      obtain ⟨b, b', rfl, hb, hb'⟩ := ih h
      exact ⟨.mark .comma :: .mark (.closing k) :: b, b', rfl, .drop k hb, hb'⟩

/-- A token other than a closing bracket stands where it is left. -/
theorem exists_of_cons (ht : ∀ k, t ≠ .mark (.closing k)) (h : Trims ts (t :: us)) :
    ∃ rest, ts = t :: rest ∧ Trims rest us := by
  cases h with
  | keep _ h => exact ⟨_, rfl, h⟩
  | drop k => exact absurd rfl (ht k)

/-- A closing bracket that is left stood there, with or without a comma before it. -/
theorem eq_or_eq_of_closing (h : Trims ts [.mark (.closing k)]) :
    ts = [.mark (.closing k)] ∨ ts = [.mark .comma, .mark (.closing k)] := by
  cases h with
  | keep _ h =>
    cases h
    exact Or.inl rfl
  | drop _ h =>
    cases h
    exact Or.inr rfl

end Trims

section

variable {α : Type} {depth : Nat} {v : Value} {xs : List α} {x : α}
  {item item' : List Token → α → Prop} {style : Style}

/-- What begins a value is no closing bracket. -/
theorem closesFirst_of_beginsWell (h : BeginsWell ts) : closesFirst ts = false := by
  obtain ⟨t, _, rfl, ht, -⟩ := h
  cases t with
  | mark m =>
    obtain ⟨k, rfl⟩ := ht
    rfl
  | _ => rfl

/-- The tokens of one notation become those of another when commas are taken out. -/
def TrimsTo (item item' : List Token → α → Prop) : Prop :=
  ∀ ts x, item ts x → ∃ us, Trims ts us ∧ item' us x

/-- What becomes the tokens of one notation when commas are taken out is in another. -/
def TrimsFrom (item item' : List Token → α → Prop) : Prop :=
  ∀ ts us x, Trims ts us → item' us x → item ts x

/-- There is no comma to take out of a single token. -/
theorem trims_single (h : Single ts v) : Trims ts ts := by
  cases h <;> exact .keep nofun .nil

/-- Commas are taken out of a member where they are taken out of its value. -/
theorem exists_trims_member {value value' : List Token → Value → Prop}
    (hvalue : TrimsTo value value') : TrimsTo (Member value) (Member value') := by
  rintro _ _ ⟨hkey, h⟩
  obtain ⟨us, htrims, hus⟩ := hvalue _ _ h
  exact ⟨_, .keep nofun (.keep nofun htrims), .mk hkey hus⟩

/-- Commas are taken out of a row of items item by item. -/
theorem exists_trims_chain (hitem : TrimsTo item item')
    (hwell : ∀ ts x, item ts x → BeginsWell ts ∧ EndsWell ts) (h : Chain item ts xs) :
    ∃ us, Trims ts us ∧ Chain item' us xs := by
  induction h with
  | single hx =>
    obtain ⟨us, htrims, hus⟩ := hitem _ _ hx
    exact ⟨us, htrims, .single hus⟩
  | cons hx h ih =>
    obtain ⟨us, htrims, hus⟩ := hitem _ _ hx
    obtain ⟨vs, htrims', hvs⟩ := ih
    have hbegins := h.beginsWell fun ts x h => (hwell ts x h).1
    exact ⟨us ++ .mark .comma :: vs, htrims.append (hwell _ _ hx).2
      (.keep (fun _ => closesFirst_of_beginsWell hbegins) htrims'), .cons hus hvs⟩

/-- Brackets that allow a comma behind the last item become such that do not. -/
theorem exists_trims_bracketed (k : Container) (hitem : TrimsTo item item')
    (hwell : ∀ ts x, item ts x → BeginsWell ts ∧ EndsWell ts) (h : Row style item ts xs) :
    ∃ us, Trims (bracketed k ts) (bracketed k us) ∧ Row .strict item' us xs := by
  have hclosing : Trims [.mark (.closing k)] [.mark (.closing k)] := .closing .nil
  cases h with
  | empty => exact ⟨[], .keep (by simp) hclosing, .empty⟩
  | lone => exact ⟨[], .keep (by simp) (.drop k .nil), .empty⟩
  | chain h =>
    obtain ⟨us, htrims, hus⟩ := exists_trims_chain hitem hwell h
    exact ⟨us, .keep (by simp) (htrims.append (h.endsWell hwell) hclosing), .chain hus⟩
  | trailing _ h =>
    obtain ⟨us, htrims, hus⟩ := exists_trims_chain hitem hwell h
    refine ⟨us, .keep (by simp) ?_, .chain hus⟩
    rw [List.append_assoc]
    exact htrims.append (h.endsWell hwell) (.drop k .nil)

/-- A value begins with a token of a value and ends with no comma. -/
theorem Denotes.well (h : Denotes style depth ts v) : BeginsWell ts ∧ EndsWell ts :=
  ⟨h.beginsWell, h.endsWell⟩

/-- A value keeps its value in the strict style. -/
theorem exists_trims_denotes (depth : Nat) :
    TrimsTo (Denotes style depth) (Denotes .strict depth) := by
  induction depth with
  | zero => exact fun ts v h => ⟨ts, trims_single h, h⟩
  | succ depth ih =>
    rintro ts v (h | h)
    · exact ⟨ts, trims_single h, Or.inl h⟩
    cases h with
    | array h =>
      obtain ⟨us, htrims, hus⟩ := exists_trims_bracketed .array ih (fun _ _ h => Denotes.well h) h
      exact ⟨_, htrims, Or.inr (.array hus)⟩
    | object h =>
      obtain ⟨us, htrims, hus⟩ := exists_trims_bracketed .object (exists_trims_member ih)
        (fun _ _ h => ⟨h.beginsWell, h.endsWell fun _ _ h => Denotes.well h⟩) h
      exact ⟨_, htrims, Or.inr (.object hus)⟩

/-- A single token that is left is what stood there. -/
theorem single_of_trims (h : Trims ts us) (hus : Single us v) : Single ts v := by
  cases hus with
  | word hw hv =>
    obtain ⟨rest, rfl, hrest⟩ := h.exists_of_cons (by simp)
    cases hrest
    exact .word hw hv
  | string hraw =>
    obtain ⟨rest, rfl, hrest⟩ := h.exists_of_cons (by simp)
    cases hrest
    exact .string hraw

/-- A member came from a member if its value came from a value. -/
theorem member_of_trims {value value' : List Token → Value → Prop}
    (hvalue : TrimsFrom value value') : TrimsFrom (Member value) (Member value') := by
  rintro _ _ _ h ⟨hkey, hus⟩
  obtain ⟨rest, rfl, hrest⟩ := h.exists_of_cons (by simp)
  obtain ⟨ts, rfl, hts⟩ := hrest.exists_of_cons (by simp)
  exact .mk hkey (hvalue _ _ _ hts hus)

/-- A row of items came from a row of items. -/
theorem chain_of_trims (hitem : TrimsFrom item item') (h : Trims ts us)
    (hus : Chain item' us xs) : Chain item ts xs := by
  induction hus generalizing ts with
  | single hx => exact .single (hitem _ _ _ h hx)
  | cons hx _ ih =>
    obtain ⟨a, b, rfl, ha, hb⟩ := h.exists_of_append
    obtain ⟨rest, rfl, hrest⟩ := hb.exists_of_cons (by simp)
    exact .cons (hitem _ _ _ ha hx) (ih hrest)

/-- Brackets came from brackets, with or without a comma before the closing one. -/
theorem exists_row_of_trims {k : Container} (hitem : TrimsFrom item item')
    (h : Trims ts (bracketed k us)) (hus : Row .strict item' us xs) :
    ∃ row, ts = bracketed k row ∧ Row .loose item row xs := by
  obtain ⟨rest, rfl, hrest⟩ := h.exists_of_cons (by simp)
  obtain ⟨a, b, rfl, ha, hb⟩ := hrest.exists_of_append
  -- Only in front of the closing bracket may a comma have been taken out.
  rcases hus.of_strict with ⟨rfl, rfl⟩ | hus
  · cases ha
    rcases hb.eq_or_eq_of_closing with rfl | rfl
    · exact ⟨[], rfl, .empty⟩
    · exact ⟨[.mark .comma], rfl, .lone rfl⟩
  · have hchain := chain_of_trims hitem ha hus
    rcases hb.eq_or_eq_of_closing with rfl | rfl
    · exact ⟨a, rfl, .chain hchain⟩
    · exact ⟨a ++ [.mark .comma], by simp [bracketed], .trailing rfl hchain⟩

/-- What becomes a value in the strict style is the same value in the loose style. -/
theorem denotes_of_trims (depth : Nat) :
    TrimsFrom (Denotes .loose depth) (Denotes .strict depth) := by
  induction depth with
  | zero => exact fun _ _ _ => single_of_trims
  | succ depth ih =>
    rintro ts us v h (hus | hus)
    · exact Or.inl (single_of_trims h hus)
    cases hus with
    | array hus =>
      obtain ⟨row, rfl, hrow⟩ := exists_row_of_trims ih h hus
      exact Or.inr (.array hrow)
    | object hus =>
      obtain ⟨row, rfl, hrow⟩ := exists_row_of_trims (member_of_trims ih) h hus
      exact Or.inr (.object hrow)

end

/-- An opening bracket. -/
def Token.isOpening : Token → Bool
  | .mark (.opening _) => true
  | _ => false

/-- Whether a container holds a comma and nothing else. `opened` tells whether a bracket is opened
right before the tokens. -/
def hasLone : Bool → List Token → Bool
  | _, [] => false
  | opened, t :: ts =>
    (opened && t == .mark .comma && closesFirst ts) || hasLone t.isOpening ts

/-- Tokens without a lone comma, whatever stands around them. -/
def Plain (ts : List Token) : Prop := ∀ opened us, hasLone opened (ts ++ us) = hasLone false us

/-- Tokens with a lone comma, whatever stands around them. -/
def Lone (ts : List Token) : Prop := ∀ opened us, hasLone opened (ts ++ us) = true

section

variable {α : Type} {depth : Nat} {v : Value} {xs : List α} {item item' : List Token → α → Prop}

/-- Tokens without a lone comma have none when one part follows the other. -/
theorem Plain.append (h : Plain ts) (h' : Plain us) : Plain (ts ++ us) := by
  intro opened vs
  rw [List.append_assoc, h, h']

/-- A lone comma is one whatever follows. -/
theorem Lone.append (h : Lone ts) (us : List Token) : Lone (ts ++ us) := by
  intro opened vs
  rw [List.append_assoc, h]

/-- A lone comma is one whatever stands before it. -/
theorem Plain.append_lone (h : Plain ts) (h' : Lone us) : Lone (ts ++ us) := by
  intro opened vs
  rw [List.append_assoc, h, h']

/-- A token that is neither a comma nor an opening bracket makes no comma lone. -/
theorem plain_of_ne {t : Token} (hcomma : t ≠ .mark .comma) (hopening : t.isOpening = false) :
    Plain [t] := by
  intro opened us
  simp [hasLone, hcomma, hopening]

/-- A comma before something else than a closing bracket is not lone. -/
theorem hasLone_comma {ts : List Token} (h : closesFirst ts = false) (opened : Bool) :
    hasLone opened (.mark .comma :: ts) = hasLone false ts := by
  simp [hasLone, h, Token.isOpening]

/-- A token that is a value is no lone comma. -/
theorem plain_of_single (h : Single ts v) : Plain ts := by
  cases h <;> exact plain_of_ne nofun rfl

theorem plain_key (raw : List Char) : Plain [.string raw, .mark .colon] :=
  (plain_of_ne (t := .string raw) nofun rfl).append (plain_of_ne (by simp) rfl)

/-- There is no lone comma in a member if there is none in its value. -/
theorem plain_of_member {value : List Token → Value → Prop} (hvalue : ∀ ts v, value ts v → Plain ts)
    {m : String × Value} (h : Member value ts m) : Plain ts := by
  cases h with
  | mk _ h => exact (plain_key _).append (hvalue _ _ h)

/-- Behind an item a comma with further items is not alone. -/
theorem hasLone_further (hts : BeginsWell ts) (opened : Bool) (vs : List Token) :
    hasLone opened (.mark .comma :: ts ++ vs) = hasLone false (ts ++ vs) :=
  hasLone_comma (closesFirst_of_beginsWell (hts.append vs)) opened

/-- There is no lone comma in a row of items if there is none in the items. -/
theorem plain_of_chain (hbegins : ∀ ts x, item ts x → BeginsWell ts)
    (hitem : ∀ ts x, item ts x → Plain ts) (h : Chain item ts xs) : Plain ts := by
  induction h with
  | single hx => exact hitem _ _ hx
  | cons hx h ih =>
    refine (hitem _ _ hx).append fun opened vs => ?_
    rw [hasLone_further (h.beginsWell hbegins), ih]

/-- There is no lone comma in brackets if there is none in the items, even with a comma behind the
last. -/
theorem plain_of_row (k : Container) (hbegins : ∀ ts x, item ts x → BeginsWell ts)
    (hitem : ∀ ts x, item ts x → Plain ts) (h : Row .trailingCommas item ts xs) :
    Plain (bracketed k ts) := by
  have hclosing : Plain [.mark (.closing k)] := plain_of_ne (by simp) rfl
  have hopening (ts : List Token) (opened : Bool) :
      hasLone opened (.mark (.opening k) :: ts) = hasLone true ts := by
    simp [hasLone, Token.isOpening]
  intro opened us
  rw [bracketed, List.cons_append, List.append_assoc, hopening]
  cases h with
  | empty => exact hclosing true us
  | lone h => cases h
  | chain h => rw [plain_of_chain hbegins hitem h, hclosing]
  | trailing _ h =>
    rw [List.append_assoc, plain_of_chain hbegins hitem h]
    exact hclosing false us

/-- A value in the style of trailing commas has no lone comma. -/
theorem plain_of_denotes (h : Denotes .trailingCommas depth ts v) : Plain ts := by
  induction depth generalizing ts v with
  | zero => exact plain_of_single h
  | succ depth ih =>
    rcases h with h | h
    · exact plain_of_single h
    cases h with
    | array h => exact plain_of_row .array (fun _ _ h => Denotes.beginsWell h) (fun _ _ => ih) h
    | object h =>
      exact plain_of_row .object (fun _ _ h => Member.beginsWell h)
        (fun _ _ => plain_of_member fun _ _ => ih) h

/-- A row of loose items is one of the others, or some item holds a lone comma. -/
theorem chain_or_lone (hbegins : ∀ ts x, item ts x → BeginsWell ts)
    (hplain : ∀ ts x, item' ts x → Plain ts) (hitem : ∀ ts x, item ts x → item' ts x ∨ Lone ts)
    (h : Chain item ts xs) : Chain item' ts xs ∨ Lone ts := by
  induction h with
  | single hx => exact (hitem _ _ hx).imp_left .single
  | cons hx h ih =>
    rcases hitem _ _ hx with hx' | hlone
    · refine ih.imp (.cons hx') fun hlone => (hplain _ _ hx').append_lone fun opened vs => ?_
      rw [hasLone_further (h.beginsWell hbegins), hlone]
    · exact Or.inr (hlone.append _)

/-- What stands in loose brackets may stand in the others, or a comma is lone there. -/
theorem row_or_lone (k : Container) (hbegins : ∀ ts x, item ts x → BeginsWell ts)
    (hplain : ∀ ts x, item' ts x → Plain ts) (hitem : ∀ ts x, item ts x → item' ts x ∨ Lone ts)
    (h : Row .loose item ts xs) :
    Row .trailingCommas item' ts xs ∨ Lone (bracketed k ts) := by
  have hbracketed {ts : List Token} (us : List Token) (h : Lone ts) :
      Lone (bracketed k (ts ++ us)) := by
    intro opened vs
    have hinner := h true (us ++ (.mark (.closing k) :: vs))
    simp [bracketed, hasLone, Token.isOpening, hinner]
  cases h with
  | empty => exact Or.inl .empty
  | lone =>
    right
    intro opened vs
    simp [bracketed, hasLone, Token.isOpening, closesFirst]
  | chain h =>
    refine (chain_or_lone hbegins hplain hitem h).imp .chain fun hlone => ?_
    have hlone := hbracketed [] hlone
    rwa [List.append_nil] at hlone
  | trailing _ h => exact (chain_or_lone hbegins hplain hitem h).imp (.trailing rfl) (hbracketed _)

/-- A loose member is one of the others, or its value holds a lone comma. -/
theorem member_or_lone {value value' : List Token → Value → Prop}
    (hvalue : ∀ ts v, value ts v → value' ts v ∨ Lone ts) {m : String × Value}
    (h : Member value ts m) : Member value' ts m ∨ Lone ts := by
  cases h with
  | @mk raw _ _ _ hkey h =>
    exact (hvalue _ _ h).imp (.mk hkey) fun hlone => (plain_key raw).append_lone hlone

/-- A value in the loose style is in the style of trailing commas, or it has a lone comma. -/
theorem denotes_or_lone (h : Denotes .loose depth ts v) :
    Denotes .trailingCommas depth ts v ∨ Lone ts := by
  induction depth generalizing ts v with
  | zero => exact Or.inl h
  | succ depth ih =>
    rcases h with h | h
    · exact Or.inl (Or.inl h)
    cases h with
    | array h =>
      exact (row_or_lone .array (fun _ _ h => Denotes.beginsWell h)
        (fun _ _ h => plain_of_denotes h) (fun _ _ => ih) h).imp_left fun h => Or.inr (.array h)
    | object h =>
      exact (row_or_lone .object (fun _ _ h => Member.beginsWell h)
        (fun _ _ h => plain_of_member (fun _ _ h => plain_of_denotes h) h)
        (fun _ _ h => member_or_lone (fun _ _ => ih) h) h).imp_left fun h => Or.inr (.object h)

/-- The tokens of a value in the loose style are in the style of trailing commas exactly when no
container holds a comma and nothing else. -/
theorem denotes_trailingCommas_iff (h : Denotes .loose depth ts v) :
    Denotes .trailingCommas depth ts v ↔ hasLone false ts = false := by
  constructor
  · intro h
    have hplain := plain_of_denotes h false []
    rwa [List.append_nil] at hplain
  · intro hnot
    refine (denotes_or_lone h).resolve_right fun hlone => ?_
    have hlone := hlone false []
    rw [List.append_nil, hnot] at hlone
    cases hlone

end

end ScriptModules.Json

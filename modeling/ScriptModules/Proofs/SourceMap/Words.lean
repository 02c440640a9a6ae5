import Mathlib
import ScriptModules.Proofs.Except
import ScriptModules.Proofs.SourceMap.Columns

/-!
# Reading mappings in words of 64 bits

Checked arithmetic on signed words of 64 bits stops at a result that does not fit. The quantities of
a segment never stop it, as the number of their digits is limited; at most a shift loses bits of a
thirteenth digit. The sums of the quantities are not limited, and reading stops at the first segment
behind which one of them does not fit. It gives the same map or fault wherever it does not stop.
-/

namespace ScriptModules.SourceMap

/-- A number that a signed word of 64 bits holds. -/
def IsWord64 (n : Int) : Prop := -2 ^ 63 ≤ n ∧ n < 2 ^ 63

instance (n : Int) : Decidable (IsWord64 n) := inferInstanceAs (Decidable (_ ∧ _))

/-- Why reading ends before the text does. -/
inductive Halt where
  | overflow
  | fault (fault : MappingsFault)
  deriving DecidableEq, Repr

/-- The result of an addition or a negation. -/
def checked (n : Int) : Except Halt Int := if IsWord64 n then .ok n else .error .overflow

/-- A digit in its place. Shifting by 64 or more overflows. Bits that leave the word are lost, which
is an overflow only where `lossless` asks for it. -/
def shifted (lossless : Bool) (d shift : Nat) : Except Halt Int :=
  let n : Int := d * 2 ^ shift
  if 64 ≤ shift then .error .overflow
  else if IsWord64 n then .ok n
  else if lossless then .error .overflow
  else .ok (n.bmod (2 ^ 64))

/-- A word with one more digit added to it. -/
def withDigit (lossless : Bool) (value : Int) (d shift : Nat) : Except Halt Int := do
  let part ← shifted lossless d shift
  checked (value + part)

/-- The number that a word holds with its sign in the lowest bit. -/
def halved (value : Int) : Except Halt Int :=
  if value % 2 = 1 then checked (-(value.fdiv 2)) else .ok (value.fdiv 2)

/-- Read the quantities of a segment in checked arithmetic. -/
def checkedQuantities (lossless : Bool) (offset : Nat) (value : Int) (shift : Nat) :
    List Char → Except Halt (List Int)
  | [] => if shift = 0 then .ok [] else .error (.fault ⟨offset, "unterminated VLQ value"⟩)
  | c :: r =>
    match Text.Base64.value? c with
    | none => .error (.fault ⟨offset, "invalid base64 digit"⟩)
    | some d => do
      let value ← withDigit lossless value (d % 32) shift
      if d < 32 then
        let n ← halved value
        let more ← checkedQuantities lossless (offset + 1) 0 0 r
        return n :: more
      else if shift + 5 > 60 then throw (.fault ⟨offset, "VLQ value overflows"⟩)
      else checkedQuantities lossless (offset + 1) value (shift + 5) r

/-- Fields that all fit words. -/
def Fields.InWords (f : Fields) : Prop :=
  IsWord64 f.generatedColumn ∧ IsWord64 f.source ∧ IsWord64 f.originalLine ∧
    IsWord64 f.originalColumn ∧ IsWord64 f.name

instance (f : Fields) : Decidable f.InWords := inferInstanceAs (Decidable (_ ∧ _))

/-- Move on by the differences of a segment. Each field that changes is the result of one addition,
which has to fit. -/
def Fields.checkedStep (f : Fields) (offset : Nat) (values : List Int) :
    Except Halt (Fields × Option Segment) := do
  let (g, segment?) ← (f.step offset values).mapError .fault
  if g.InWords then return (g, segment?) else throw .overflow

/-- Read the segments of a line in checked arithmetic. -/
def checkedLine (lossless : Bool) (f : Fields) (offset : Nat) (line : List Segment) :
    List (List Char) → Except Halt (Fields × Nat × List Segment)
  | [] => .ok (f, offset, line)
  | field :: r => do
    let values ← checkedQuantities lossless offset 0 0 field
    let offset := offset + field.length + 1
    let (f, segment?) ← f.checkedStep offset values
    checkedLine lossless f offset ((segment?.map (insertSegment · line)).getD line) r

/-- Read lines in checked arithmetic. -/
def checkedLines (lossless : Bool) (f : Fields) (offset : Nat) :
    List (List Char) → Except Halt (List (List Segment))
  | [] => .ok []
  | group :: r => do
    let fields := (Text.splitAt ',' group).filter (!·.isEmpty)
    let (f, offset, line) ← checkedLine lossless { f with generatedColumn := 0 } offset [] fields
    let more ← checkedLines lossless f (offset + 1) r
    return line :: more

/-- What reading a JSON text in checked arithmetic comes to, unless it overflows. -/
def checkedOfJson? (lossless : Bool) (s : String) : Option (Except DocumentFault SourceMap) :=
  match Document.parse s with
  | .error fault => some (.error (.json fault))
  | .ok d =>
    if d.version != 3 then some (.error (.version d.version))
    else
      match checkedLines lossless {} 0 (Text.splitAt ';' d.mappings.toList) with
      | .error .overflow => none
      | .error (.fault fault) => some (.error (.mappings fault))
      | .ok lines =>
        some (.ok {
          file := d.file
          sources := d.sources
          contents := if d.contents.isEmpty then d.sources.map fun _ => none else d.contents
          names := d.names
          lines := lines })

/-- A checked result that stops where `stops` holds and is the plain result elsewhere. -/
def Stops {α : Type} (stops : Prop) (x : Except Halt α) (y : Except MappingsFault α) : Prop :=
  stops ∧ x = .error .overflow ∨ ¬ stops ∧ x = y.mapError .fault

namespace Stops

variable {α β : Type} {stops : Prop} {x : Except Halt α} {y : Except MappingsFault α}

/-- What stops under one condition stops under another that is the same. -/
theorem congr {stops' : Prop} (h : Stops stops x y) (hiff : stops ↔ stops') :
    Stops stops' x y := by
  rwa [Stops, ← hiff]

/-- A plain result does not stop. -/
theorem ok (a : α) : Stops False (.ok a) (.ok a) := Or.inr ⟨not_false, rfl⟩

/-- A plain fault does not stop. -/
theorem fault (e : MappingsFault) :
    Stops False (.error (.fault e) : Except Halt α) (.error e) := Or.inr ⟨not_false, rfl⟩

/-- Checked reading overflows just when it stops. -/
theorem eq_overflow_iff (h : Stops stops x y) : x = .error .overflow ↔ stops := by
  rcases h with ⟨hstops, hx⟩ | ⟨hgoes, hx⟩
  · exact iff_of_true hx hstops
  · refine iff_of_false ?_ hgoes
    rw [hx]
    cases y <;> simp [Except.mapError]

/-- What has a result did not stop. -/
theorem not_of_eq_ok (h : Stops stops x y) {a : α} (hx : x = .ok a) : ¬ stops := by
  rw [← h.eq_overflow_iff, hx]
  nofun

/-- The first of two steps stops, or the second does behind it. -/
theorem bind (stops' : α → Prop) {next : α → Except Halt β} {next' : α → Except MappingsFault β}
    (h : Stops stops x y)
    (hnext : ∀ a, x = .ok a → y = .ok a → Stops (stops' a) (next a) (next' a)) :
    Stops (stops ∨ ∃ a, y = .ok a ∧ stops' a) (x >>= next) (y >>= next') := by
  rcases h with ⟨hstops, rfl⟩ | ⟨hgoes, rfl⟩
  · exact Or.inl ⟨Or.inl hstops, rfl⟩
  · cases y with
    | error e => exact (fault e).congr (by simp [hgoes])
    | ok a => exact (hnext a rfl rfl).congr (by simp [hgoes])

/-- Going on with a result does not stop by itself. -/
theorem bind_ok (h : Stops stops x y) (f : α → β) :
    Stops stops (x >>= fun a => .ok (f a)) (y >>= fun a => .ok (f a)) :=
  (h.bind (fun _ => False) fun a _ _ => .ok (f a)).congr (by simp)

end Stops

/-- A quantity, of which `k` digits were read, or a later one has a thirteenth digit that is too
large for its place. -/
inductive LosesBits : Nat → List Char → Prop
  | here {c : Char} {d : Nat} {rest : List Char} (hc : Text.Base64.value? c = some d)
    (hd : 8 ≤ d % 32) : LosesBits 12 (c :: rest)
  | further {k d : Nat} {c : Char} {rest : List Char} (hc : Text.Base64.value? c = some d)
    (hd : 32 ≤ d) (hk : k < 12) (h : LosesBits (k + 1) rest) : LosesBits k (c :: rest)
  | later {k d : Nat} {c : Char} {rest : List Char} (hc : Text.Base64.value? c = some d)
    (hd : d < 32) (h : LosesBits 0 rest) : LosesBits k (c :: rest)

/-- A quantity loses bits at its thirteenth digit or later in the text. -/
theorem losesBits_cons_iff {k d : Nat} {c : Char} {rest : List Char}
    (hc : Text.Base64.value? c = some d) :
    LosesBits k (c :: rest) ↔ k = 12 ∧ 8 ≤ d % 32 ∨
      (if d < 32 then LosesBits 0 rest else k < 12 ∧ LosesBits (k + 1) rest) := by
  constructor
  · rintro (⟨hc', hd⟩ | ⟨hc', hd, hk, h⟩ | ⟨hc', hd, h⟩) <;>
      obtain rfl := Option.some.inj (hc.symm.trans hc')
    · exact Or.inl ⟨rfl, hd⟩
    · exact Or.inr (by rw [if_neg (by omega)]; exact ⟨hk, h⟩)
    · exact Or.inr (by rwa [if_pos hd])
  · rintro (⟨rfl, hd⟩ | h)
    · exact .here hc hd
    · split at h
      · exact .later hc ‹_› h
      · exact .further hc (by omega) h.1 h.2

/-- What a digit in its place adds up to with the digits before it. -/
theorem lt_of_place {d k word : Nat} (hd : d < 32) (hword : word < 2 ^ (5 * k)) :
    word + d * 2 ^ (5 * k) < 2 ^ (5 * (k + 1)) := by
  have hle : (d + 1) * 2 ^ (5 * k) ≤ 32 * 2 ^ (5 * k) := Nat.mul_le_mul_right _ hd
  rw [Nat.mul_add, Nat.pow_add, Nat.mul_comm (2 ^ (5 * k))]
  rw [Nat.add_mul, Nat.one_mul] at hle
  exact Nat.lt_of_lt_of_le (by omega) hle

/-- What fits is not changed by checking it. -/
theorem checked_of_fits {n : Int} (h : IsWord64 n) : checked n = .ok n := if_pos h

/-- A number that is taken into a word is told by its remainder. -/
theorem bmod_word (n : Int) : n.bmod (2 ^ 64) =
    if n % 2 ^ 64 < 2 ^ 63 then n % 2 ^ 64 else n % 2 ^ 64 - 2 ^ 64 := by
  simp only [Int.bmod]
  split <;> split <;> omega

/-- A word of at most twelve digits is the number that they denote. -/
theorem bmod_eq_of_lt {k word : Nat} (hk : k ≤ 12) (hword : word < 2 ^ (5 * k)) :
    (word : Int).bmod (2 ^ 64) = word := by
  have hle : 2 ^ (5 * k) ≤ 2 ^ 60 := Nat.pow_le_pow_right (by decide) (by omega)
  have hlt : word < 2 ^ 60 := Nat.lt_of_lt_of_le hword hle
  exact Int.bmod_eq_of_le (by omega) (by omega)

/-- A digit in its place is itself if it fits, and loses its high bits otherwise. -/
theorem shifted_eq (lossless : Bool) (d : Nat) {shift : Nat} (hshift : shift < 64) :
    shifted lossless d shift = if IsWord64 (d * 2 ^ shift) then .ok (d * 2 ^ shift)
      else if lossless then .error .overflow else .ok (((d : Int) * 2 ^ shift).bmod (2 ^ 64)) :=
  if_neg (Nat.not_le.mpr hshift)

/-- A digit is added if it and the sum fit. -/
theorem withDigit_of_shifted {lossless : Bool} {d shift : Nat} {value part : Int}
    (h : shifted lossless d shift = .ok part) (hsum : IsWord64 (value + part)) :
    withDigit lossless value d shift = .ok (value + part) := by
  rw [withDigit, h]
  exact checked_of_fits hsum

/-- A digit that fits its place is added without overflow. -/
theorem withDigit_of_fits (lossless : Bool) {d shift word : Nat} (hshift : shift < 64)
    (hsum : word + d * 2 ^ shift < 2 ^ 63) :
    withDigit lossless word d shift = .ok ((word + d * 2 ^ shift : Nat) : Int) := by
  have hpart : (d : Int) * 2 ^ shift = ((d * 2 ^ shift : Nat) : Int) := by
    push_cast
    rfl
  have hfits : IsWord64 ((d : Int) * 2 ^ shift) := by
    rw [hpart, IsWord64]
    omega
  have hfits' : IsWord64 (word + (d : Int) * 2 ^ shift) := by
    rw [hpart, IsWord64]
    omega
  rw [withDigit_of_shifted ((shifted_eq lossless d hshift).trans (if_pos hfits)) hfits', hpart,
    Int.natCast_add]

/-- The thirteenth digit loses bits where it is 8 or more, and is added without overflow. -/
theorem withDigit_of_loses (lossless : Bool) {d word : Nat} (hd : d < 32) (hbits : 8 ≤ d)
    (hword : word < 2 ^ 60) :
    withDigit lossless word d 60 = if lossless then .error .overflow
      else .ok (((word + d * 2 ^ 60 : Nat) : Int).bmod (2 ^ 64)) := by
  have hlost : ¬ IsWord64 ((d : Int) * 2 ^ 60) := by
    rw [IsWord64]
    omega
  have hfits : IsWord64 (word + ((d : Int) * 2 ^ 60).bmod (2 ^ 64)) := by
    rw [bmod_word, IsWord64]
    split <;> omega
  have hsum : word + ((d : Int) * 2 ^ 60).bmod (2 ^ 64) =
      ((word + d * 2 ^ 60 : Nat) : Int).bmod (2 ^ 64) := by
    rw [bmod_word, bmod_word]
    split <;> split <;> omega
  have hshifted := (shifted_eq lossless d (by decide)).trans (if_neg hlost)
  cases lossless with
  | true =>
    rw [withDigit, hshifted]
    rfl
  | false => rw [withDigit_of_shifted hshifted hfits, hsum, if_neg Bool.false_ne_true]

/-- A digit is added without overflow, but for the bits that it loses in the thirteenth place. -/
theorem withDigit_eq (lossless : Bool) {d k word : Nat} (hd : d < 32) (hk : k ≤ 12)
    (hword : word < 2 ^ (5 * k)) :
    withDigit lossless word d (5 * k) =
      if lossless = true ∧ k = 12 ∧ 8 ≤ d then .error .overflow
      else .ok (((word + d * 2 ^ (5 * k) : Nat) : Int).bmod (2 ^ 64)) := by
  by_cases hbits : k = 12 ∧ 8 ≤ d
  · obtain ⟨rfl, hbits⟩ := hbits
    have hword : word < 2 ^ 60 := hword
    rw [show 5 * 12 = 60 from rfl, withDigit_of_loses lossless hd hbits hword]
    cases lossless <;> simp [hbits]
  · have hsum : word + d * 2 ^ (5 * k) < 2 ^ 63 := by
      rcases Nat.lt_or_eq_of_le hk with hk | rfl
      · have hle : 2 ^ (5 * (k + 1)) ≤ 2 ^ 60 := Nat.pow_le_pow_right (by decide) (by omega)
        exact Nat.lt_trans (Nat.lt_of_lt_of_le (lt_of_place hd hword) hle) (by decide)
      · omega
    rw [if_neg (by tauto), withDigit_of_fits lossless (by omega) hsum,
      Int.bmod_eq_of_le (by omega) (by omega)]

/-- A word is halved without overflow. -/
theorem halved_bmod (word : Nat) :
    halved ((word : Int).bmod (2 ^ 64)) = .ok (ofSignBit word) := by
  have hvalue : (word : Int).bmod (2 ^ 64) =
      if word % 2 ^ 64 < 2 ^ 63 then ((word % 2 ^ 64 : Nat) : Int)
      else ((word % 2 ^ 64 : Nat) : Int) - 2 ^ 64 := by
    rw [bmod_word]
    split <;> split <;> omega
  have hparity : (word : Int).bmod (2 ^ 64) % 2 = 1 ↔ (word % 2 ^ 64 % 2 == 1) = true := by
    rw [hvalue, beq_iff_eq]
    split <;> omega
  have hbound : IsWord64 (-(((word : Int).bmod (2 ^ 64)).fdiv 2)) := by
    rw [Int.fdiv_eq_ediv_of_nonneg _ (by decide)]
    rw [bmod_word, IsWord64]
    split <;> omega
  have hsign : ofSignBit word =
      if (word % 2 ^ 64 % 2 == 1) = true then -(((word : Int).bmod (2 ^ 64)).fdiv 2)
      else ((word : Int).bmod (2 ^ 64)).fdiv 2 := by
    rw [hvalue]
    rfl
  rw [halved, checked_of_fits hbound, hsign]
  by_cases hodd : (word % 2 ^ 64 % 2 == 1) = true
  · rw [if_pos (hparity.mpr hodd), if_pos hodd]
  · rw [if_neg (mt hparity.mp hodd), if_neg hodd]

/-- Reading quantities stops only at lost bits, where they are asked for. -/
theorem stops_checkedQuantities (lossless : Bool) (offset word : Nat) {k : Nat} (hk : k ≤ 12)
    (hword : word < 2 ^ (5 * k)) (cs : List Char) :
    Stops (lossless = true ∧ LosesBits k cs) (checkedQuantities lossless offset word (5 * k) cs)
      (decodeQuantities offset word (5 * k) cs) := by
  induction cs generalizing offset word k with
  | nil =>
    have hnone : ¬ LosesBits k [] := nofun
    rw [checkedQuantities, decodeQuantities]
    split
    · exact (Stops.ok _).congr (by simp [hnone])
    · exact (Stops.fault _).congr (by simp [hnone])
  | cons c rest ih =>
    rw [checkedQuantities, decodeQuantities]
    cases hc : Text.Base64.value? c with
    | none =>
      have hnone : ¬ LosesBits k (c :: rest) := by
        rintro (⟨hc', -⟩ | ⟨hc', -⟩ | ⟨hc', -⟩) <;> rw [hc] at hc' <;> cases hc'
      exact (Stops.fault _).congr (by simp [hnone])
    | some d =>
      dsimp only
      rw [withDigit_eq lossless (Nat.mod_lt d (by decide)) hk hword, losesBits_cons_iff hc]
      by_cases hlost : lossless = true ∧ k = 12 ∧ 8 ≤ d % 32
      · rw [if_pos hlost]
        exact Or.inl ⟨⟨hlost.1, Or.inl hlost.2⟩, rfl⟩
      · rw [if_neg hlost]
        have hword' := lt_of_place (Nat.mod_lt d (by decide)) hword
        change Stops _ (if d < 32 then _ else _) (if d < 32 then _ else _)
        by_cases hd : d < 32
        · simp only [if_pos hd]
          rw [halved_bmod]
          have hmore := (ih (offset + 1) 0 (Nat.zero_le 12) (by decide)).bind_ok
            (ofSignBit (word + d % 32 * 2 ^ (5 * k)) :: ·)
          exact hmore.congr (by tauto)
        · simp only [if_neg hd]
          by_cases hlast : k = 12
          · rw [if_pos (by omega), if_pos (by omega)]
            exact (Stops.fault _).congr (by subst hlast; tauto)
          · rw [if_neg (by omega), if_neg (by omega), bmod_eq_of_lt (by omega) hword']
            exact (ih (offset + 1) _ (Nat.succ_le_of_lt (by omega)) hword').congr
              (by simp [hlast]; omega)

/-- The sum of the quantities of mapped segments at an index. -/
def total (i : Nat) (segments : List (List Int)) : Int :=
  ((segments.filter isMapped).map (·.getD i 0)).sum

/-- What the quantities of whole lines and of the first segments of one more line add up to. The
generated column starts anew on each line. -/
def totals (lines : List (List (List Int))) (segments : List (List Int)) : Fields :=
  ⟨total 0 segments, total 1 (lines.flatten ++ segments), total 2 (lines.flatten ++ segments),
    total 3 (lines.flatten ++ segments), total 4 (lines.flatten ++ segments)⟩

/-- The sum over one more segment has its quantity added, if it is mapped. -/
theorem total_concat (i : Nat) (segments : List (List Int)) (values : List Int) :
    total i (segments ++ [values]) =
      total i segments + if isMapped values then values.getD i 0 else 0 := by
  by_cases h : isMapped values = true <;> simp [total, h]

/-- On a new line, only the column starts anew. -/
theorem totals_newLine (lines : List (List (List Int))) (segments : List (List Int)) :
    ({ totals lines segments with generatedColumn := 0 } : Fields) =
      totals (lines ++ [segments]) [] := by
  simp [totals, total]

/-- The sums over one more segment have its quantities added. -/
theorem totals_concat (lines : List (List (List Int))) (segments : List (List Int))
    (values : List Int) :
    totals lines (segments ++ [values]) =
      let added (i : Nat) : Int := if isMapped values then values.getD i 0 else 0
      let f := totals lines segments
      ⟨f.generatedColumn + added 0, f.source + added 1, f.originalLine + added 2,
        f.originalColumn + added 3, f.name + added 4⟩ := by
  simp only [totals, ← List.append_assoc, total_concat]

/-- Moving on by a segment adds its quantities to the sums. -/
theorem step_totals_eq_ok_iff (lines : List (List (List Int))) (segments : List (List Int))
    (offset : Nat) {values : List Int} {g : Fields} :
    (∃ segment?, (totals lines segments).step offset values = .ok (g, segment?)) ↔
      IsSegment values ∧ g = totals lines (segments ++ [values]) := by
  rw [totals_concat]
  generalize totals lines segments = f
  constructor
  · rintro ⟨segment?, h⟩
    refine ⟨(Fields.isSegment_of_step h).1, ?_⟩
    unfold Fields.step at h
    split at h <;> simp_all [isMapped]
  · rintro ⟨hsegment, rfl⟩
    match values, hsegment with
    | [_], _ => exact ⟨none, by simp [Fields.step, isMapped]⟩
    | [_, _, _, _], _ => exact ⟨_, by simp [Fields.step, isMapped]; rfl⟩
    | [_, _, _, _, _], _ => exact ⟨_, by simp [Fields.step, isMapped]; rfl⟩
    | [], h => simp [IsSegment] at h
    | [_, _], h => simp [IsSegment] at h
    | [_, _, _], h => simp [IsSegment] at h
    | _ :: _ :: _ :: _ :: _ :: _ :: _, h => simp [IsSegment] at h

/-- A piece that is read as a segment of some quantities. -/
def ReadsAs (field : List Char) (values : List Int) : Prop :=
  decodeQuantities 0 0 0 field = .ok values ∧ IsSegment values

/-- A piece is read in one way. -/
theorem ReadsAs.unique {field : List Char} {values values' : List Int} (h : ReadsAs field values)
    (h' : ReadsAs field values') : values = values' :=
  Except.ok.inj (h.1.symm.trans h'.1)

/-- Behind some segments of a line the sums do not fit, or the piece behind these loses bits. -/
def OverflowsWithin (lossless : Bool) (lines : List (List (List Int))) (segments : List (List Int))
    (fields : List (List Char)) : Prop :=
  ∃ read more values, fields = read ++ more ∧ List.Forall₂ ReadsAs read values ∧
    (¬ (totals lines (segments ++ values)).InWords ∨
      lossless = true ∧ ∃ field ∈ more.head?, LosesBits 0 field)

/-- The pieces of a line that are not empty. -/
def fieldsOf (group : List Char) : List (List Char) :=
  (Text.splitAt ',' group).filter (!·.isEmpty)

/-- Behind some whole lines there is one in which the sums stop fitting. -/
def OverflowsFrom (lossless : Bool) (lines : List (List (List Int))) (groups : List (List Char)) :
    Prop :=
  ∃ done group rest more, groups = done ++ group :: rest ∧
    List.Forall₂ (fun group => List.Forall₂ ReadsAs (fieldsOf group)) done more ∧
    OverflowsWithin lossless (lines ++ more) [] (fieldsOf group)

variable {lossless : Bool} {lines : List (List (List Int))} {segments : List (List Int)}

/-- Sums that do not fit overflow whatever follows. -/
theorem overflowsWithin_of_not_inWords (h : ¬ (totals lines segments).InWords)
    (fields : List (List Char)) : OverflowsWithin lossless lines segments fields :=
  ⟨[], fields, [], rfl, .nil, Or.inl (by rwa [List.append_nil])⟩

/-- Sums that fit overflow nowhere if nothing follows. -/
theorem not_overflowsWithin_nil (h : (totals lines segments).InWords) :
    ¬ OverflowsWithin lossless lines segments [] := by
  rintro ⟨read, more, values, hfields, hread, hover⟩
  obtain ⟨rfl, rfl⟩ := List.append_eq_nil_iff.mp hfields.symm
  cases hread
  rw [List.append_nil] at hover
  simp [h] at hover

/-- The sums stop fitting at once, at the first piece or behind the segment that it is. -/
theorem overflowsWithin_cons_iff {field : List Char} {rest : List (List Char)} :
    OverflowsWithin lossless lines segments (field :: rest) ↔
      ¬ (totals lines segments).InWords ∨ lossless = true ∧ LosesBits 0 field ∨
        ∃ values, ReadsAs field values ∧
          OverflowsWithin lossless lines (segments ++ [values]) rest := by
  constructor
  · rintro ⟨read, more, values, hfields, hread, hover⟩
    cases hread with
    | nil =>
      rw [List.nil_append] at hfields
      subst hfields
      rcases hover with hover | ⟨hlossless, hover⟩
      · exact Or.inl (by rwa [List.append_nil] at hover)
      · exact Or.inr (Or.inl ⟨hlossless, by simpa using hover⟩)
    | @cons _ values read more' hfirst hread =>
      obtain ⟨rfl, rfl⟩ := List.cons.inj hfields
      refine Or.inr (Or.inr ⟨values, hfirst, read, more, more', rfl, hread, ?_⟩)
      rwa [List.append_assoc]
  · rintro (hover | ⟨hlossless, hover⟩ | ⟨values, hfirst, read, more, more', rfl, hread, hover⟩)
    · exact overflowsWithin_of_not_inWords hover _
    · exact ⟨[], _, [], rfl, .nil, Or.inr ⟨hlossless, field, rfl, hover⟩⟩
    · refine ⟨field :: read, more, values :: more', rfl, .cons hfirst hread, ?_⟩
      rwa [List.append_assoc] at hover

/-- The sums of lines overflow on the first one or on those after it. -/
theorem overflowsFrom_cons_iff {group : List Char} {rest : List (List Char)} :
    OverflowsFrom lossless lines (group :: rest) ↔
      OverflowsWithin lossless lines [] (fieldsOf group) ∨
        ∃ quantities, List.Forall₂ ReadsAs (fieldsOf group) quantities ∧
          OverflowsFrom lossless (lines ++ [quantities]) rest := by
  constructor
  · rintro ⟨done, group', rest', more, hgroups, hdone, hover⟩
    cases hdone with
    | nil =>
      obtain ⟨rfl, rfl⟩ := List.cons.inj hgroups
      exact Or.inl (by rwa [List.append_nil] at hover)
    | @cons _ quantities done more hfirst hdone =>
      obtain ⟨rfl, rfl⟩ := List.cons.inj hgroups
      refine Or.inr ⟨quantities, hfirst, done, group', rest', more, rfl, hdone, ?_⟩
      rwa [List.append_assoc]
  · rintro (hover | ⟨quantities, hfirst, done, group', rest', more, rfl, hdone, hover⟩)
    · exact ⟨[], group, rest, [], rfl, .nil, by rwa [List.append_nil]⟩
    · refine ⟨group :: done, group', rest', quantities :: more, rfl, .cons hfirst hdone, ?_⟩
      rwa [List.append_assoc] at hover

/-- A piece is read as a segment where its quantities are that. -/
theorem readsAs_iff (offset : Nat) {field : List Char} {values : List Int} :
    decodeQuantities offset 0 0 field = .ok values ∧ IsSegment values ↔ ReadsAs field values :=
  ⟨fun ⟨hvalues, hsegment⟩ => ⟨decodeQuantities_offset hvalues 0, hsegment⟩,
    fun ⟨hvalues, hsegment⟩ => ⟨decodeQuantities_offset hvalues offset, hsegment⟩⟩

/-- Moving on stops where the sums do not fit behind the segment. -/
theorem stops_checkedStep (offset : Nat) (values : List Int) :
    Stops (IsSegment values ∧ ¬ (totals lines (segments ++ [values])).InWords)
      ((totals lines segments).checkedStep offset values)
      ((totals lines segments).step offset values) := by
  rw [Fields.checkedStep]
  cases hstep : (totals lines segments).step offset values with
  | error e =>
    have hnone : ¬ IsSegment values := by
      intro hsegment
      obtain ⟨_, hok⟩ := (step_totals_eq_ok_iff _ _ offset).mpr ⟨hsegment, rfl⟩
      rw [hstep] at hok
      cases hok
    exact (Stops.fault e).congr (by simp [hnone])
  | ok pair =>
    obtain ⟨g, segment?⟩ := pair
    obtain ⟨hsegment, rfl⟩ := (step_totals_eq_ok_iff _ _ _).mp ⟨segment?, hstep⟩
    by_cases hfits : (totals lines (segments ++ [values])).InWords
    · exact Or.inr ⟨by simp [hfits], if_pos hfits⟩
    · exact Or.inl ⟨⟨hsegment, hfits⟩, if_neg hfits⟩

/-- Reading a line stops where the sums do not fit behind one of its segments. -/
theorem stops_checkedLine (lossless : Bool) (hfits : (totals lines segments).InWords) (offset : Nat)
    (line : List Segment) (fields : List (List Char)) :
    Stops (OverflowsWithin lossless lines segments fields)
      (checkedLine lossless (totals lines segments) offset line fields)
      (decodeLine (totals lines segments) offset line fields) := by
  induction fields generalizing segments offset line with
  | nil => exact (Stops.ok _).congr (iff_of_false not_false (not_overflowsWithin_nil hfits))
  | cons field rest ih =>
    have hquantities := stops_checkedQuantities lossless offset 0 (Nat.zero_le 12) (by decide) field
    refine (hquantities.bind _ fun values _ _ =>
      (stops_checkedStep (offset + field.length + 1) values).bind
        (fun _ => OverflowsWithin lossless lines (segments ++ [values]) rest)
        fun pair hchecked hstep => ?_).congr ?_
    · obtain ⟨hsegment, hg⟩ := (step_totals_eq_ok_iff _ _ _).mp ⟨pair.2, hstep⟩
      have hnext := (stops_checkedStep (offset + field.length + 1) values).not_of_eq_ok hchecked
      have hfits' : (totals lines (segments ++ [values])).InWords := by
        by_contra hover
        exact hnext ⟨hsegment, hover⟩
      rw [show pair = (pair.1, pair.2) from rfl, hg]
      exact ih hfits' _ _
    · rw [overflowsWithin_cons_iff]
      constructor
      · rintro (hover | ⟨values, hvalues, ⟨hsegment, hover⟩ | ⟨pair, hstep, hover⟩⟩)
        · exact Or.inr (Or.inl hover)
        · exact Or.inr (Or.inr ⟨values, (readsAs_iff offset).mp ⟨hvalues, hsegment⟩,
            overflowsWithin_of_not_inWords hover rest⟩)
        · obtain ⟨hsegment, -⟩ := (step_totals_eq_ok_iff _ _ _).mp ⟨pair.2, hstep⟩
          exact Or.inr (Or.inr ⟨values, (readsAs_iff offset).mp ⟨hvalues, hsegment⟩, hover⟩)
      · rintro (hover | hover | ⟨values, hreads, hover⟩)
        · exact absurd hfits hover
        · exact Or.inl hover
        · obtain ⟨segment?, hstep⟩ :=
            (step_totals_eq_ok_iff lines segments (offset + field.length + 1)).mpr ⟨hreads.2, rfl⟩
          exact Or.inr ⟨values, ((readsAs_iff offset).mpr hreads).1, Or.inr ⟨_, hstep, hover⟩⟩

/-- A line is read just when all its pieces are segments, and then adds them to the sums. -/
theorem decodeLine_totals_eq_ok_iff (lines : List (List (List Int))) (segments : List (List Int))
    (offset : Nat) (line : List Segment) {fields : List (List Char)} {g : Fields} :
    (∃ o line', decodeLine (totals lines segments) offset line fields = .ok (g, o, line')) ↔
      ∃ values, List.Forall₂ ReadsAs fields values ∧ g = totals lines (segments ++ values) := by
  induction fields generalizing segments offset line with
  | nil =>
    constructor
    · rintro ⟨o, line', h⟩
      obtain ⟨rfl, -⟩ := Prod.mk.inj (Except.ok.inj h)
      exact ⟨[], .nil, by rw [List.append_nil]⟩
    · rintro ⟨values, hreads, rfl⟩
      cases hreads
      exact ⟨offset, line, by rw [List.append_nil]; rfl⟩
  | cons field rest ih =>
    constructor
    · rintro ⟨o, line', h⟩
      rw [decodeLine] at h
      obtain ⟨values, hvalues, h⟩ := exists_of_bind_eq_ok h
      obtain ⟨⟨f, segment?⟩, hstep, h⟩ := exists_of_bind_eq_ok h
      obtain ⟨hsegment, rfl⟩ := (step_totals_eq_ok_iff _ _ _).mp ⟨segment?, hstep⟩
      obtain ⟨more, hmore, rfl⟩ := (ih _ _ _).mp ⟨o, line', h⟩
      exact ⟨values :: more, .cons ((readsAs_iff offset).mp ⟨hvalues, hsegment⟩) hmore,
        by rw [List.append_assoc, List.singleton_append]⟩
    · rintro ⟨values, hreads, rfl⟩
      cases hreads with
      | @cons _ values _ more hfirst hmore =>
        obtain ⟨hvalues, hsegment⟩ := (readsAs_iff offset).mpr hfirst
        obtain ⟨segment?, hstep⟩ :=
          (step_totals_eq_ok_iff lines segments (offset + field.length + 1)).mpr ⟨hsegment, rfl⟩
        obtain ⟨o, line', h⟩ := (ih (segments ++ [values]) (offset + field.length + 1)
          ((segment?.map (insertSegment · line)).getD line)).mpr
          ⟨more, hmore, by rw [List.append_assoc, List.singleton_append]⟩
        refine ⟨o, line', ?_⟩
        rw [decodeLine, hvalues]
        simp only [bind, Except.bind, hstep, h]

/-- Sums that fit still do on a new line. -/
theorem inWords_newLine (h : (totals lines segments).InWords) :
    (totals (lines ++ [segments]) []).InWords := by
  rw [← totals_newLine]
  exact ⟨show IsWord64 0 by decide, h.2⟩

/-- Reading lines stops where the sums do not fit behind a segment. -/
theorem stops_checkedLines (lines : List (List (List Int))) {f : Fields}
    (hf : ({ f with generatedColumn := 0 } : Fields) = totals lines [])
    (hfits : (totals lines []).InWords) (offset : Nat) (groups : List (List Char)) :
    Stops (OverflowsFrom lossless lines groups) (checkedLines lossless f offset groups)
      (decodeLines f offset groups) := by
  induction groups generalizing lines f offset with
  | nil =>
    have hnone : ¬ OverflowsFrom lossless lines [] := by
      rintro ⟨done, group, rest, more, hgroups, -⟩
      simp at hgroups
    exact (Stops.ok _).congr (iff_of_false not_false hnone)
  | cons group rest ih =>
    have hline := stops_checkedLine lossless hfits offset [] (fieldsOf group)
    rw [checkedLines, decodeLines, hf]
    refine (hline.bind (fun _ => ∃ quantities,
      List.Forall₂ ReadsAs (fieldsOf group) quantities ∧
        OverflowsFrom lossless (lines ++ [quantities]) rest)
      fun triple hchecked hdecoded => ?_).congr ?_
    · obtain ⟨g, o, line⟩ := triple
      obtain ⟨quantities, hreads, rfl⟩ := (decodeLine_totals_eq_ok_iff _ _ _ _).mp
        ⟨o, line, hdecoded⟩
      have hwords : (totals lines quantities).InWords := by
        by_contra hover
        exact hline.not_of_eq_ok hchecked
          ⟨_, [], quantities, (List.append_nil _).symm, hreads, Or.inl hover⟩
      have hmore := (ih _ (totals_newLine lines quantities) (inWords_newLine hwords)
        (o + 1)).bind_ok (line :: ·)
      refine hmore.congr ⟨fun hover => ⟨quantities, hreads, hover⟩, ?_⟩
      rintro ⟨quantities', hreads', hover⟩
      rwa [List.right_unique_forall₂' (fun _ _ _ h h' => h.unique h') hreads hreads']
    · rw [overflowsFrom_cons_iff]
      refine or_congr_right ⟨?_, ?_⟩
      · rintro ⟨_, _, h⟩
        exact h
      · rintro ⟨quantities, hreads, hover⟩
        obtain ⟨o, line, hdecoded⟩ :=
          (decodeLine_totals_eq_ok_iff lines [] offset []).mpr ⟨quantities, hreads, rfl⟩
        exact ⟨_, hdecoded, quantities, hreads, hover⟩

/-- A mappings text in which the sums stop fitting, or, where `lossless` asks for it, a quantity
loses bits. -/
def Overflows (lossless : Bool) (mappings : String) : Prop :=
  OverflowsFrom lossless [] (Text.splitAt ';' mappings.toList)

/-- An integer that is read has at most 62 bits. -/
theorem natAbs_ofSignBit_le (word : Nat) : (ofSignBit word).natAbs ≤ 2 ^ 62 := by
  have hhalf : IsWord64 ((word : Int).bmod (2 ^ 64)) := by
    rw [bmod_word, IsWord64]
    split <;> omega
  have hword := halved_bmod word
  generalize (word : Int).bmod (2 ^ 64) = value at hhalf hword
  have hfdiv : value.fdiv 2 = value / 2 := Int.fdiv_eq_ediv_of_nonneg _ (by decide)
  rw [IsWord64] at hhalf
  rw [halved, hfdiv, checked] at hword
  split at hword
  · split at hword
    · rw [← Except.ok.inj hword]
      omega
    · cases hword
  · rw [← Except.ok.inj hword]
    omega

/-- A quantity is at most 2 ^ 62 in size. -/
theorem natAbs_le_of_decodeQuantities {offset word shift : Nat} {cs : List Char}
    {values : List Int} (h : decodeQuantities offset word shift cs = .ok values) :
    ∀ value ∈ values, value.natAbs ≤ 2 ^ 62 := by
  induction cs generalizing offset word shift values with
  | nil =>
    rw [decodeQuantities] at h
    split at h
    · obtain rfl := Except.ok.inj h
      simp
    · cases h
  | cons c rest ih =>
    rw [decodeQuantities] at h
    cases hdigit : Text.Base64.value? c with
    | none => simp [hdigit] at h
    | some d =>
      simp only [hdigit] at h
      split at h
      · obtain ⟨more, hmore, h⟩ := exists_of_bind_eq_ok h
        obtain rfl := Except.ok.inj h
        exact List.forall_mem_cons.mpr ⟨natAbs_ofSignBit_le _, ih hmore⟩
      · split at h
        · cases h
        · exact ih h

/-- The sums of a single segment fit. -/
theorem inWords_totals_singleton {field : List Char} {values : List Int}
    (h : ReadsAs field values) : (totals [] [values]).InWords := by
  have hadded (i : Nat) : IsWord64 (0 + if isMapped values then values.getD i 0 else 0) := by
    split
    · rw [List.getD_eq_getElem?_getD]
      cases hget : values[i]? with
      | none => decide
      | some value =>
        have hle := natAbs_le_of_decodeQuantities h.1 value (List.mem_of_getElem? hget)
        rw [Option.getD_some, IsWord64]
        omega
    · decide
  rw [← List.nil_append [values], totals_concat]
  exact ⟨hadded 0, hadded 1, hadded 2, hadded 3, hadded 4⟩

/-- A text of a single segment does not overflow, unless lost bits count. -/
theorem not_overflows_of_single {mappings : String} (hcomma : ',' ∉ mappings.toList)
    (hsemicolon : ';' ∉ mappings.toList) : ¬ Overflows false mappings := by
  rw [Overflows, Text.splitAt_of_not_mem hsemicolon]
  rintro ⟨done, group, rest, more, hgroups, hdone, read, fields, values, hfields, hread, hover⟩
  obtain ⟨rfl, rfl, rfl⟩ : done = [] ∧ group = mappings.toList ∧ rest = [] := by
    cases done <;> simp_all
  cases hdone
  have hlength : read.length ≤ 1 := by
    have hle := congrArg List.length hfields
    rw [fieldsOf, Text.splitAt_of_not_mem hcomma, List.length_append] at hle
    have := List.length_filter_le (fun field : List Char => !field.isEmpty) [mappings.toList]
    simp only [List.length_singleton] at this
    omega
  rcases hover with hover | ⟨hlossless, -⟩
  · cases hread with
    | nil => exact hover (by decide)
    | cons hfirst hmore =>
      obtain rfl := List.length_eq_zero_iff.mp (Nat.le_zero.mp (Nat.le_of_succ_le_succ hlength))
      cases hmore
      exact hover (inWords_totals_singleton hfirst)
  · cases hlossless

/-- Checked reading of mappings stops where they overflow and is the plain reading elsewhere. -/
theorem stops_checkedLines_linesOf (lossless : Bool) (mappings : String) :
    Stops (Overflows lossless mappings)
      (checkedLines lossless {} 0 (Text.splitAt ';' mappings.toList)) (linesOf mappings) :=
  stops_checkedLines [] rfl (by decide) 0 _

/-- A document overflows with its mappings, if it is of version 3, and is read plainly otherwise. -/
theorem checkedOfJson?_of_parse (lossless : Bool) {json : String} {d : Document}
    (hd : Document.parse json = .ok d) :
    d.version = 3 ∧ Overflows lossless d.mappings ∧ checkedOfJson? lossless json = none ∨
      ¬ (d.version = 3 ∧ Overflows lossless d.mappings) ∧
        checkedOfJson? lossless json = some (ofJson json) := by
  by_cases hversion : d.version = 3
  · rcases stops_checkedLines_linesOf lossless d.mappings with ⟨hover, hlines⟩ | ⟨hgoes, hlines⟩
    · exact Or.inl ⟨hversion, hover, by simp [checkedOfJson?, hd, hversion, hlines]⟩
    · refine Or.inr ⟨fun h => hgoes h.2, ?_⟩
      cases hplain : linesOf d.mappings <;>
        simp [checkedOfJson?, ofJson, Document.toMap, hd, hversion, hlines, hplain, Except.mapError]
  · exact Or.inr ⟨fun h => hversion h.1,
      by simp [checkedOfJson?, ofJson, Document.toMap, hd, hversion]⟩

/-- Reading a JSON text in checked arithmetic overflows just when it holds a map of version 3 with
mappings whose sums stop fitting words, or whose quantities lose bits, if that counts. Wherever it
does not overflow it gives the map or the fault that plain reading gives. The quantities of a
segment never overflow by themselves, nor do the sums of a single segment. -/
theorem checkedOfJson?_spec (lossless : Bool) (json : String) :
    (checkedOfJson? lossless json = none ↔ ∃ d, Document.parse json = .ok d ∧ d.version = 3 ∧
      Overflows lossless d.mappings) ∧
    (∀ result, checkedOfJson? lossless json = some result → result = ofJson json) ∧
    (∀ offset field, checkedQuantities false offset 0 0 field =
      (decodeQuantities offset 0 0 field).mapError .fault) ∧
    ∀ mappings : String, ',' ∉ mappings.toList → ';' ∉ mappings.toList →
      ¬ Overflows false mappings := by
  have hquantities (offset : Nat) (field : List Char) : checkedQuantities false offset 0 0 field =
      (decodeQuantities offset 0 0 field).mapError .fault := by
    rcases stops_checkedQuantities false offset 0 (Nat.zero_le 12) (by decide) field with
      ⟨⟨hlossless, -⟩, -⟩ | ⟨-, hplain⟩
    · cases hlossless
    · exact hplain
  refine ⟨?_, ?_, hquantities, fun _ => not_overflows_of_single⟩
  · cases hd : Document.parse json with
    | error fault => simp [checkedOfJson?, hd]
    | ok d =>
      rcases checkedOfJson?_of_parse lossless hd with ⟨hv, hover, hx⟩ | ⟨hgoes, hx⟩
      · exact iff_of_true hx ⟨d, rfl, hv, hover⟩
      · refine iff_of_false (by simp [hx]) ?_
        rintro ⟨d', hd', h⟩
        obtain rfl := Except.ok.inj hd'
        exact hgoes h
  · intro result hresult
    cases hd : Document.parse json with
    | error fault => simpa [checkedOfJson?, ofJson, hd, eq_comm] using hresult
    | ok d =>
      rcases checkedOfJson?_of_parse lossless hd with ⟨-, -, hx⟩ | ⟨-, hx⟩
      · rw [hx] at hresult
        cases hresult
      · exact (Option.some.inj (hx.symm.trans hresult)).symm

/-- A document of three segments whose sources are 2 ^ 62 - 1 apart. -/
def farApart : String :=
  "\x7b\"version\":3,\"sources\":[],\"mappings\":" ++
    "\"A+///////////HAA,A+///////////HAA,A+///////////HAA\"\x7d"

/-- The document is read with its mappings. -/
theorem parse_farApart : Document.parse farApart = .ok ⟨3, none, [], [], [],
    "A+///////////HAA,A+///////////HAA,A+///////////HAA"⟩ := by
  decide +kernel

/-- The document overflows. -/
theorem checkedOfJson?_farApart : checkedOfJson? false farApart = none := by
  rw [checkedOfJson?, parse_farApart]
  decide +kernel

/-- A document of only one such segment. -/
def far : String :=
  "\x7b\"version\":3,\"sources\":[],\"mappings\":\"A+///////////HAA\"\x7d"

/-- The document is read with its mappings. -/
theorem parse_far :
    Document.parse far = .ok ⟨3, none, [], [], [], "A+///////////HAA"⟩ := by
  decide +kernel

/-- The document with one segment does not overflow. -/
theorem checkedOfJson?_far : (checkedOfJson? false far).isSome = true := by
  rw [checkedOfJson?, parse_far]
  decide +kernel

/-- Three segments that are each far enough from the last overflow, and one of them does not. -/
theorem checkedOfJson?_spec_farApart :
    (∃ d, Document.parse farApart = .ok d ∧ d.version = 3 ∧ Overflows false d.mappings) ∧
      checkedOfJson? false far = some (ofJson far) ∧ ¬ Overflows false "A+///////////HAA" := by
  refine ⟨(checkedOfJson?_spec false farApart).1.mp checkedOfJson?_farApart, ?_, ?_⟩
  · obtain ⟨result, hresult⟩ := Option.isSome_iff_exists.mp checkedOfJson?_far
    rw [hresult, (checkedOfJson?_spec false far).2.1 result hresult]
  · exact (checkedOfJson?_spec false far).2.2.2 _ (by decide) (by decide)

/-- A document of one segment, in which the thirteenth digit of the column loses its only bit. -/
def tooHigh : String :=
  "\x7b\"version\":3,\"sources\":[],\"mappings\":\"ggggggggggggQAAA\"\x7d"

/-- The document is read with its mappings. -/
theorem parse_tooHigh :
    Document.parse tooHigh = .ok ⟨3, none, [], [], [], "ggggggggggggQAAA"⟩ := by
  decide +kernel

/-- The third source of one document does not fit a word, although no bits are lost. Bits of a digit
are lost in the other, although all sums fit. -/
theorem not_forall_checkedOfJson?_isSome :
    ¬ (∀ json, (checkedOfJson? false json).isSome = true) ∧
      ¬ ∀ json, (checkedOfJson? false json).isSome = true →
        (checkedOfJson? true json).isSome = true := by
  refine ⟨fun h => ?_, fun h => ?_⟩
  · have hsome := h farApart
    rw [checkedOfJson?_farApart] at hsome
    cases hsome
  · have hsome := h tooHigh
    rw [checkedOfJson?, checkedOfJson?, parse_tooHigh] at hsome
    revert hsome
    decide +kernel

end ScriptModules.SourceMap

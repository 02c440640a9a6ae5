import Mathlib.Data.Nat.Digits.Lemmas
import Mathlib.Data.Set.Card
import Mathlib.Order.Interval.Set.Nat
import ScriptModules.Project.Config
import ScriptModules.Proofs.Files.Walk

/-!
# Paths that are left

A path that can be read is not too long, and there are only so many texts of that length. Reading
paths that were not seen before therefore ends, whatever the files are.
-/

namespace ScriptModules.Project

open Files.Tree (TooLong)

/-- The bytes of a text as digits, below a last digit of one. -/
def textDigits (s : String) : List Nat := s.toByteArray.data.toList.map UInt8.toNat ++ [1]

/-- Texts with the same digits are the same. -/
theorem textDigits_injective : Function.Injective textDigits := by
  intro s s' h
  have hbytes := List.append_cancel_right h
  have hdata := List.map_injective_iff.mpr (fun _ _ => UInt8.toNat_inj.mp) hbytes
  exact String.toByteArray_inj.mp (ByteArray.ext (Array.toList_inj.mp hdata))

/-- The digits of a text are bytes. -/
theorem textDigits_lt {s : String} {d : Nat} (h : d ∈ textDigits s) : d < 256 := by
  rcases List.mem_append.mp h with h | h
  · obtain ⟨b, -, rfl⟩ := List.mem_map.mp h
    exact b.toNat_lt
  · obtain rfl := List.mem_singleton.mp h
    decide

/-- A text has a digit for each byte and one more. -/
theorem length_textDigits (s : String) : (textDigits s).length = s.utf8ByteSize + 1 := by
  rw [textDigits, List.length_append, List.length_map, Array.length_toList]
  rfl

/-- Every text has a number of its own. -/
def textNumber (s : String) : Nat := Nat.ofDigits 256 (textDigits s)

/-- Texts with the same number are the same. -/
theorem textNumber_injective : Function.Injective textNumber := by
  intro s s' h
  have hdigits (s : String) : Nat.digits 256 (textNumber s) = textDigits s :=
    Nat.digits_ofDigits 256 (by decide) _ (fun _ => textDigits_lt) (by simp [textDigits])
  exact textDigits_injective ((hdigits s).symm.trans (h ▸ hdigits s'))

/-- No text has the number zero. -/
theorem textNumber_pos (s : String) : 0 < textNumber s := by
  rw [textNumber, textDigits, Nat.ofDigits_append]
  exact Nat.add_pos_right _ (Nat.mul_pos (Nat.pow_pos (by decide)) (by decide))

/-- A short text has a small number. -/
theorem textNumber_lt {s : String} {n : Nat} (h : s.utf8ByteSize ≤ n) :
    textNumber s < textBound n := by
  have hlt := Nat.ofDigits_lt_base_pow_length (b := 256) (by decide)
    (fun _ => textDigits_lt (s := s))
  rw [length_textDigits] at hlt
  rw [textBound]
  exact hlt.trans_le (Nat.pow_le_pow_right (by decide) (Nat.succ_le_succ h))

/-- The paths, told apart by their parts, that are short enough to be read and not yet seen. -/
def left (seen : List Path) : Set (List Path.Part) :=
  {parts | (∃ p : Path, ¬ TooLong p ∧ p.parts = parts) ∧ ∀ q ∈ seen, q.parts ≠ parts}

/-- How many paths are left. -/
noncomputable def room (seen : List Path) : Nat := (left seen).ncard

/-- The numbers of the texts that are short enough stay below the limit. -/
theorem textNumber_mem {p : Path} (h : ¬ TooLong p) : textNumber p.text ∈ Set.Ioo 0 wayLimit :=
  ⟨textNumber_pos _, textNumber_lt (Nat.not_lt.mp h)⟩

/-- Paths that are short enough are told apart by their numbers. -/
theorem textNumber_injOn : Set.InjOn (fun p : Path => textNumber p.text) {p | ¬ TooLong p} := by
  rintro ⟨s⟩ - ⟨s'⟩ - h
  exact congrArg Path.mk (textNumber_injective h)

/-- Only so many paths are short enough to be read. -/
theorem finite_short : {p : Path | ¬ TooLong p}.Finite :=
  .of_injOn (fun _ => textNumber_mem) textNumber_injOn (Set.finite_Ioo 0 wayLimit)

/-- What is left are paths that are short enough. -/
theorem left_subset (seen : List Path) : left seen ⊆ Path.parts '' {p | ¬ TooLong p} :=
  fun _ h => h.1

/-- Only so many paths are left. -/
theorem finite_left (seen : List Path) : (left seen).Finite :=
  (finite_short.image _).subset (left_subset seen)

/-- There is less room than the limit, even where nothing was seen. -/
theorem room_lt_wayLimit (seen : List Path) : room seen < wayLimit := by
  have hempty : textNumber "" ∈ Set.Ioo 0 wayLimit :=
    textNumber_mem (p := ⟨""⟩) (Nat.not_lt.mpr (Nat.zero_le _))
  calc room seen
    _ ≤ (Path.parts '' {p | ¬ TooLong p}).ncard :=
      Set.ncard_le_ncard (left_subset seen) (finite_short.image _)
    _ ≤ {p : Path | ¬ TooLong p}.ncard := Set.ncard_image_le finite_short
    _ ≤ (Set.Ioo 0 wayLimit).ncard :=
      Set.ncard_le_ncard_of_injOn _ (fun _ => textNumber_mem) textNumber_injOn
        (Set.finite_Ioo 0 wayLimit)
    _ = wayLimit - 1 := by
      rw [← Finset.coe_Ioo, Set.ncard_coe_finset, Nat.card_Ioo, Nat.sub_zero]
    _ < wayLimit := Nat.sub_one_lt_of_lt hempty.2

/-- Whatever is seen, nothing is left that was not left before. -/
theorem left_cons_subset (p : Path) (seen : List Path) : left (p :: seen) ⊆ left seen :=
  fun _ h => ⟨h.1, fun q hq => h.2 q (List.mem_cons_of_mem _ hq)⟩

/-- There is no more room when one more path was seen. -/
theorem room_cons_le (p : Path) (seen : List Path) : room (p :: seen) ≤ room seen :=
  Set.ncard_le_ncard (left_cons_subset p seen) (finite_left seen)

/-- A path that is seen for the first time leaves less room. -/
theorem room_cons_lt {p : Path} {seen : List Path} (h : ¬ TooLong p)
    (hfresh : seen.any (·.same p) = false) : room (p :: seen) < room seen := by
  refine Set.ncard_lt_ncard ⟨left_cons_subset p seen, fun hsubset => ?_⟩ (finite_left seen)
  have hleft : p.parts ∈ left seen := by
    refine ⟨⟨p, h, rfl⟩, fun q hq heq => ?_⟩
    have hsame := List.any_eq_false.mp hfresh q hq
    simp [Path.same, heq] at hsame
  exact (hsubset hleft).2 p List.mem_cons_self rfl

end ScriptModules.Project

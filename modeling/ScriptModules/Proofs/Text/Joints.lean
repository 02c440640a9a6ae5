import Mathlib.Data.List.TakeWhile
import ScriptModules.Proofs.Text.Offsets
import ScriptModules.Proofs.Text.Split

/-!
# Joints of a text

A text that is put together from pieces has a joint wherever a piece ends, but for the last. Where
something is written at every joint, what follows a number of joints moves as many times by its
width, and what was written stands behind the piece and what was written before.
-/

namespace ScriptModules.Text

variable {α : Type} {size : List α → Nat} {start offset n : Nat} {ps : List (List α)}
  {pieces : List (List Char)} {es : List Nat} {cs front back : List Char}

/-- Where pieces end, but for the last of them, when the first starts at a place. -/
def joints (size : List α → Nat) (start : Nat) : List (List α) → List Nat
  | [] | [_] => []
  | p :: q :: ps => (start + size p) :: joints size (start + size p) (q :: ps)

@[simp] theorem joints_cons_cons (p q : List α) :
    joints size start (p :: q :: ps) =
      (start + size p) :: joints size (start + size p) (q :: ps) := rfl

/-- No joint stands before the first piece. -/
theorem le_of_mem_joints (h : n ∈ joints size start ps) : start ≤ n := by
  fun_induction joints size start ps with
  | case1 => cases h
  | case2 => cases h
  | case3 start p q ps ih =>
    rcases List.mem_cons.mp h with rfl | h
    · exact Nat.le_add_right _ _
    · exact (Nat.le_add_right _ _).trans (ih h)

/-- Joints stand in order. -/
theorem sorted_joints (size : List α → Nat) (start : Nat) (ps : List (List α)) :
    (joints size start ps).Pairwise (· ≤ ·) := by
  fun_induction joints size start ps with
  | case1 => exact .nil
  | case2 => exact .nil
  | case3 start p q ps ih => exact .cons (fun _ => le_of_mem_joints) ih

/-- No joint stands behind the last piece. -/
theorem le_of_mem_joints_add (hsize : ∀ a b, size (a ++ b) = size a + size b)
    (h : n ∈ joints size start ps) : n ≤ start + size ps.flatten := by
  fun_induction joints size start ps with
  | case1 => cases h
  | case2 => cases h
  | case3 start p q ps ih =>
    rw [List.flatten_cons, hsize]
    rcases List.mem_cons.mp h with rfl | h
    · omega
    · have := ih h
      omega

/-- Joints are counted from the start. -/
theorem joints_add (size : List α → Nat) (start d : Nat) (ps : List (List α)) :
    joints size (start + d) ps = (joints size start ps).map (· + d) := by
  fun_induction joints size start ps with
  | case1 => rfl
  | case2 => rfl
  | case3 start p q ps ih =>
    rw [joints_cons_cons, List.map_cons, ← ih, Nat.add_right_comm]

/-- What is at a place of the pieces moves by the width of what is written at the joints up to
there. -/
theorem getElem?_intercalate (sep : List α) (ps : List (List α)) (start c : Nat) :
    (sep.intercalate ps)[c + sep.length *
      (joints List.length start ps).countP (· ≤ start + c)]? = ps.flatten[c]? := by
  fun_induction joints List.length start ps generalizing c with
  | case1 => rfl
  | case2 start p => simp
  | case3 start p q ps ih =>
    rw [List.intercalate_cons_cons, List.flatten_cons, List.countP_cons]
    by_cases hc : c < p.length
    · have hnone :
          (joints List.length (start + p.length) (q :: ps)).countP (· ≤ start + c) = 0 := by
        rw [List.countP_eq_zero]
        intro n hn
        have := le_of_mem_joints hn
        simp only [decide_eq_true_eq]
        omega
      rw [hnone, if_neg (by simpa using hc), Nat.zero_add, Nat.mul_zero, Nat.add_zero,
        List.append_assoc, List.getElem?_append_left hc, List.getElem?_append_left hc]
    · obtain ⟨d, rfl⟩ := Nat.exists_eq_add_of_le (Nat.le_of_not_lt hc)
      have hrest := ih d
      rw [Nat.add_assoc] at hrest
      rw [if_pos (by simp), List.getElem?_append_right (Nat.le_add_right _ _),
        Nat.add_sub_cancel_left, ← hrest, List.getElem?_append_right]
      · congr 1
        rw [Nat.mul_add, Nat.mul_one, List.length_append]
        omega
      · rw [Nat.mul_add, Nat.mul_one, List.length_append]
        omega

/-- What is written at a joint stands there, behind what is written at the joints before. -/
theorem getElem?_intercalate_joint (sep : List α) (ps : List (List α)) (start : Nat) {i j : Nat}
    (hi : i < (joints List.length start ps).length) (hj : j < sep.length) :
    (sep.intercalate ps)[(joints List.length start ps)[i] - start + i * sep.length + j]? =
      sep[j]? := by
  fun_induction joints List.length start ps generalizing i with
  | case1 => cases hi
  | case2 => cases hi
  | case3 start p q ps ih =>
    rw [List.intercalate_cons_cons, List.append_assoc]
    cases i with
    | zero =>
      simp only [List.getElem_cons_zero, Nat.add_sub_cancel_left, Nat.zero_mul, Nat.add_zero]
      rw [List.getElem?_append_right (Nat.le_add_right _ _), Nat.add_sub_cancel_left,
        List.getElem?_append_left hj]
    | succ i =>
      have hi : i < (joints List.length (start + p.length) (q :: ps)).length :=
        Nat.lt_of_succ_lt_succ hi
      have hle := le_of_mem_joints (List.getElem_mem hi)
      rw [← ih hi, List.getElem_cons_succ, List.getElem?_append_right, List.getElem?_append_right]
      · congr 1
        rw [Nat.add_mul, Nat.one_mul]
        omega
      · rw [Nat.add_mul, Nat.one_mul]
        omega
      · rw [Nat.add_mul, Nat.one_mul]
        omega

/-- Pieces with something between them are as long as the pieces and what stands at every joint. -/
theorem length_intercalate (sep : List α) (h : ps ≠ []) :
    (sep.intercalate ps).length =
      ps.flatten.length + sep.length * (joints size start ps).length := by
  fun_induction joints size start ps with
  | case1 => exact absurd rfl h
  | case2 => simp
  | case3 start p q ps ih =>
    have hflatten : (p :: q :: ps).flatten.length = p.length + (q :: ps).flatten.length := by
      rw [List.flatten_cons, List.length_append]
    rw [List.intercalate_cons_cons, List.length_append, List.length_append,
      ih (List.cons_ne_nil _ _), hflatten, List.length_cons, Nat.mul_add, Nat.mul_one]
    omega

/-- What is kept piece by piece is kept with something between the pieces. -/
theorem intercalate_map {β : Type} (f : List α → List β) (hnil : f [] = [])
    (happend : ∀ a b, f (a ++ b) = f a ++ f b) (sep : List α) (ps : List (List α)) :
    f (sep.intercalate ps) = (f sep).intercalate (ps.map f) := by
  induction ps with
  | nil => exact hnil
  | cons p ps ih =>
    cases ps with
    | nil => simp
    | cons q ps =>
      rw [List.intercalate_cons_cons, happend, happend, ih, List.map_cons, List.map_cons,
        List.map_cons, List.intercalate_cons_cons]

/-- An offset behind the front is one of the rest. -/
theorem isOffset_of_append (h : IsOffset (front ++ cs) (bytesOf front + n)) : IsOffset cs n := by
  obtain ⟨a, b, heq, hbytes⟩ := h
  rcases List.append_eq_append_iff.mp heq with ⟨c, rfl, rfl⟩ | ⟨c, rfl, rfl⟩
  · exact ⟨c, b, rfl, by simpa using hbytes⟩
  · obtain rfl : n = 0 := by
      rw [bytesOf_append] at hbytes
      omega
    exact isOffset_zero cs

/-- An offset in the front is one of the front. -/
theorem isOffset_of_append_of_le (h : IsOffset (cs ++ back) n) (hle : n ≤ bytesOf cs) :
    IsOffset cs n := by
  obtain ⟨a, b, heq, rfl⟩ := h
  rcases List.append_eq_append_iff.mp heq with ⟨c, rfl, rfl⟩ | ⟨c, rfl, rfl⟩
  · refine ⟨cs, [], (List.append_nil cs).symm, ?_⟩
    rw [bytesOf_append] at hle ⊢
    omega
  · exact ⟨a, c, rfl, rfl⟩

/-- An offset is not behind the text. -/
theorem IsOffset.le (h : IsOffset cs n) : n ≤ bytesOf cs := by
  obtain ⟨a, b, rfl, rfl⟩ := h
  rw [bytesOf_append]
  exact Nat.le_add_right _ _

/-- A text is cut at offsets between its characters, in order. -/
theorem exists_joints_eq (hsorted : es.Pairwise (· ≤ ·))
    (h : ∀ e ∈ es, offset ≤ e ∧ IsOffset cs (e - offset)) :
    ∃ pieces, pieces ≠ [] ∧ pieces.flatten = cs ∧ joints bytesOf offset pieces = es := by
  induction es generalizing offset cs with
  | nil => exact ⟨[cs], List.cons_ne_nil _ _, by simp, rfl⟩
  | cons e es ih =>
    obtain ⟨hfirst, hsorted⟩ := List.pairwise_cons.mp hsorted
    obtain ⟨he, a, b, rfl, hbytes⟩ := h e List.mem_cons_self
    have hlater : ∀ e' ∈ es, e ≤ e' ∧ IsOffset b (e' - e) := by
      intro e' he'
      have hle := hfirst e' he'
      have hoffset := (h e' (List.mem_cons_of_mem _ he')).2
      rw [show e' - offset = bytesOf a + (e' - e) by omega] at hoffset
      exact ⟨hle, isOffset_of_append hoffset⟩
    obtain ⟨pieces, hne, rfl, rfl⟩ := ih hsorted hlater
    obtain ⟨p, ps, rfl⟩ := List.exists_cons_of_ne_nil hne
    refine ⟨a :: p :: ps, List.cons_ne_nil _ _, rfl, ?_⟩
    rw [joints_cons_cons, ← hbytes, Nat.add_sub_cancel' he]

/-- Before an offset behind the front stands all of the front. -/
theorem before_append (front cs : List Char) (n : Nat) :
    before (bytesOf front + n) (front ++ cs) = front ++ before n cs := by
  induction front with
  | nil => simp
  | cons c front ih =>
    have hsize := c.utf8Size_pos
    rw [List.cons_append, before, bytesOf_cons, if_neg (by omega), Nat.add_assoc,
      Nat.add_sub_cancel_left, ih, List.cons_append]

/-- Before an offset in the front, what follows has no part. -/
theorem before_append_of_le (hle : n ≤ bytesOf cs) (back : List Char) :
    before n (cs ++ back) = before n cs := by
  induction cs generalizing n with
  | nil =>
    obtain rfl := Nat.le_zero.mp hle
    cases back <;> simp [before]
  | cons c cs ih =>
    rw [List.cons_append, before, before]
    split
    · rfl
    · rw [bytesOf_cons] at hle
      rw [ih (by omega)]

/-- What stands before an offset is in the text. -/
theorem before_subset (n : Nat) (cs : List Char) : before n cs ⊆ cs := by
  have hsplit := before_append_fromOffset n cs
  intro c hc
  rw [← hsplit]
  exact List.mem_append_left _ hc

/-- The widths up to the joints are the joints of the widths. -/
theorem map_unitsOf_joints (front : List Char) (pieces : List (List Char)) :
    (joints bytesOf (bytesOf front) pieces).map
        (fun e => unitsOf (before e (front ++ pieces.flatten))) =
      joints unitsOf (unitsOf front) pieces := by
  induction pieces generalizing front with
  | nil => rfl
  | cons p ps ih =>
    cases ps with
    | nil => rfl
    | cons q ps =>
      have hrest := ih (front ++ p)
      rw [List.append_assoc, ← List.flatten_cons, bytesOf_append, unitsOf_append] at hrest
      rw [joints_cons_cons, joints_cons_cons, List.map_cons, hrest, List.flatten_cons,
        before_append, before_bytesOf, unitsOf_append]

/-- The joints of the code units are those of their number. -/
theorem joints_codeUnitsOf (start : Nat) (pieces : List (List Char)) :
    joints List.length start (pieces.map codeUnitsOf) = joints unitsOf start pieces := by
  induction pieces generalizing start with
  | nil => rfl
  | cons p ps ih =>
    cases ps with
    | nil => rfl
    | cons q ps =>
      rw [List.map_cons, List.map_cons, joints_cons_cons, ← List.map_cons, ih, joints_cons_cons,
        length_codeUnitsOf]

end ScriptModules.Text

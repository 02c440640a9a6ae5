import ScriptModules.Proofs.Grammar.Repairs
import ScriptModules.Proofs.SourceMap.Order
import ScriptModules.Proofs.Text.Joints
import ScriptModules.Transform.DynamicImport

/-!
# Checks after dynamic imports

A module with checks is the module cut where its dynamic imports end, with a check written at every
cut. Since a check holds no line feed, every line is cut for itself, and its map tells for a place
of the line where it came from: for what was in the line the last cut before it, and for what is in
a check the cut that the check was written at.
-/

namespace ScriptModules.DynamicImport

open Grammar (Dialect)
open Text (IsOffset before bytesOf codeUnitsOf joints lines unitsOf)

variable {code path : String} {dialect : Dialect} {t : Transformed} {es columns : List Nat}
  {cs front text rest : List Char} {pieces : List (List Char)} {offset line k c i j : Nat}

/-- The line of an offset, counted from zero. -/
def lineAt (cs : List Char) (offset : Nat) : Nat := (before offset cs).count '\n'

/-- The column of an offset in its line, in UTF-16 code units. -/
def columnAt (cs : List Char) (offset : Nat) : Nat :=
  unitsOf ((before offset cs).rtakeWhile (· != '\n'))

/-- The columns of those of some offsets that are on a line. -/
def columnsOn (cs : List Char) (es : List Nat) (line : Nat) : List Nat :=
  (es.filter (lineAt cs · == line)).map (columnAt cs)

/-- The width of a check in UTF-16 code units. -/
def checkWidth : Nat := unitsOf check.toList

/-- A check is written on one line. -/
theorem newline_notMem_check : '\n' ∉ check.toList := by decide +kernel

/-- Without offsets there is nothing to insert. -/
theorem insertChecks_nil (offset : Nat) (cs : List Char) : insertChecks offset [] cs = cs := by
  induction cs generalizing offset with
  | nil => rfl
  | cons c cs ih => exact congrArg (c :: ·) (ih _)

/-- The first check is written behind the first piece. -/
theorem insertChecks_append (offset : Nat) (es : List Nat) (p cs : List Char) :
    insertChecks offset ((offset + bytesOf p) :: es) (p ++ cs) =
      p ++ (check.toList ++ insertChecks (offset + bytesOf p) es cs) := by
  induction p generalizing offset with
  | nil =>
    rw [Text.bytesOf_nil, Nat.add_zero, List.nil_append, List.nil_append]
    cases cs with
    | nil => rw [insertChecks, insertChecks, List.flatMap_cons]
    | cons c cs =>
      rw [insertChecks, insertChecks, List.takeWhile_cons_of_pos (by simp),
        List.dropWhile_cons_of_pos (by simp), List.flatMap_cons, List.append_assoc]
  | cons c p ih =>
    have hsize := c.utf8Size_pos
    have hlate : ¬ offset + bytesOf (c :: p) ≤ offset := by
      rw [Text.bytesOf_cons]
      omega
    have hrest := ih (offset + c.utf8Size)
    rw [Nat.add_assoc, ← Text.bytesOf_cons] at hrest
    rw [List.cons_append, insertChecks,
      List.takeWhile_cons_of_neg (by rwa [decide_eq_true_eq]),
      List.dropWhile_cons_of_neg (by rwa [decide_eq_true_eq]), hrest, List.flatMap_nil,
      List.nil_append, List.cons_append]

/-- A check is written at every joint. -/
theorem insertChecks_joints (offset : Nat) (h : pieces ≠ []) :
    insertChecks offset (joints bytesOf offset pieces) pieces.flatten =
      check.toList.intercalate pieces := by
  fun_induction joints bytesOf offset pieces with
  | case1 => exact absurd rfl h
  | case2 offset p => rw [insertChecks_nil, List.flatten_singleton, List.intercalate_singleton]
  | case3 offset p q ps ih =>
    rw [List.flatten_cons, insertChecks_append, ih (List.cons_ne_nil _ _),
      List.intercalate_cons_cons, List.append_assoc]

/-- What is in a text with checks is in a check or in the text. -/
theorem mem_insertChecks {a : Char} (h : a ∈ insertChecks offset es cs) :
    a ∈ check.toList ∨ a ∈ cs := by
  induction cs generalizing offset es with
  | nil =>
    obtain ⟨_, -, ha⟩ := List.mem_flatMap.mp h
    exact .inl ha
  | cons c cs ih =>
    rcases List.mem_append.mp h with h | h
    · obtain ⟨_, -, ha⟩ := List.mem_flatMap.mp h
      exact .inl ha
    · rcases List.mem_cons.mp h with rfl | h
      · exact .inr List.mem_cons_self
      · exact (ih h).imp_right (List.mem_cons_of_mem _)

theorem takeWhile_takeWhile_of_le {a b : Nat} (h : a ≤ b) (es : List Nat) :
    (es.takeWhile (· ≤ b)).takeWhile (· ≤ a) = es.takeWhile (· ≤ a) := by
  rw [List.takeWhile_takeWhile]
  congr 1
  funext e
  simp only [decide_eq_true_eq, decide_eq_decide]
  omega

theorem dropWhile_takeWhile_of_le {a b : Nat} (h : a ≤ b) (es : List Nat) :
    (es.takeWhile (· ≤ b)).dropWhile (· ≤ a) = (es.dropWhile (· ≤ a)).takeWhile (· ≤ b) ∧
      (es.dropWhile (· ≤ a)).dropWhile (· ≤ b) = es.dropWhile (· ≤ b) := by
  induction es with
  | nil => exact ⟨rfl, rfl⟩
  | cons e es ih =>
    by_cases ha : e ≤ a
    · have hb : e ≤ b := ha.trans h
      simp [ha, hb, ih]
    · by_cases hb : e ≤ b <;> simp [ha, hb]

/-- Checks are written line by line. -/
theorem insertChecks_append_newline (offset : Nat) (es : List Nat) (text rest : List Char) :
    insertChecks offset es (text ++ '\n' :: rest) =
      insertChecks offset (es.takeWhile (· ≤ offset + bytesOf text)) text ++
        '\n' :: insertChecks (offset + bytesOf text + 1)
          (es.dropWhile (· ≤ offset + bytesOf text)) rest := by
  induction text generalizing offset es with
  | nil => rfl
  | cons c text ih =>
    have hle : offset ≤ offset + (c.utf8Size + bytesOf text) := Nat.le_add_right _ _
    obtain ⟨hbetween, hlater⟩ := dropWhile_takeWhile_of_le hle es
    rw [List.cons_append, insertChecks, ih, insertChecks, Text.bytesOf_cons, Nat.add_assoc,
      takeWhile_takeWhile_of_le hle, hbetween, hlater, List.append_assoc]
    rfl

/-- Checks break no line. -/
theorem newline_notMem_insertChecks (h : '\n' ∉ text) (offset : Nat) (es : List Nat) :
    '\n' ∉ insertChecks offset es text := fun hmem =>
  (mem_insertChecks hmem).elim newline_notMem_check h

/-- The first line ends at the first line end. -/
theorem lines_append_newline (h : '\n' ∉ text) (rest : List Char) :
    lines (text ++ '\n' :: rest) = text :: lines rest := Text.splitAt_append_cons h rest

/-- The offsets that come after one are greater. -/
theorem lt_of_mem_dropWhile (h : es.Pairwise (· ≤ ·)) {e : Nat}
    (he : e ∈ es.dropWhile (· ≤ k)) : k < e := by
  have hlate := Text.eq_false_of_mem_dropWhile (h.imp fun {a b} hab hb => by
    rw [decide_eq_true_eq] at hb ⊢
    exact hab.trans hb) he
  rwa [decide_eq_false_iff_not, Nat.not_le] at hlate

/-- The offsets up to one are the first of them. -/
theorem filter_le_eq_takeWhile (h : es.Pairwise (· ≤ ·)) (k : Nat) :
    es.filter (· ≤ k) = es.takeWhile (· ≤ k) :=
  Text.filter_eq_takeWhile
    (fun e he => List.mem_takeWhile_imp (p := fun e : Nat => decide (e ≤ k)) he)
    fun e he => by simpa using lt_of_mem_dropWhile h he

/-- The offsets on a line are counted from where it starts. -/
theorem exists_eq_add_of_mem_takeWhile {low m : Nat} (hes : ∀ e ∈ es, low ≤ e) {e : Nat}
    (he : e ∈ es.takeWhile (· ≤ low + m)) : ∃ n ≤ m, e = low + n := by
  have hle : e ≤ low + m := by simpa using List.mem_takeWhile_imp he
  obtain ⟨n, rfl⟩ := Nat.exists_eq_add_of_le (hes e (List.takeWhile_subset _ he))
  exact ⟨n, Nat.le_of_add_le_add_left hle, rfl⟩

/-- A line end is one byte. -/
theorem bytesOf_append_newline (front text : List Char) :
    bytesOf (front ++ (text ++ ['\n'])) = bytesOf front + bytesOf text + 1 := by
  rw [Text.bytesOf_append, Text.bytesOf_append, Nat.add_assoc]
  rfl

/-- What follows the last break of a text are the characters behind it. -/
theorem rtakeWhile_append_of_all {α : Type} {p : α → Bool} {l m : List α}
    (hl : l.rtakeWhile p = []) (hm : ∀ a ∈ m, p a = true) : (l ++ m).rtakeWhile p = m := by
  induction m using List.reverseRecOn with
  | nil => rw [List.append_nil, hl]
  | append_singleton m a ih =>
    obtain ⟨hm, ha⟩ := List.forall_mem_append.mp hm
    rw [← List.append_assoc, List.rtakeWhile_concat_pos _ _ _ (ha a (List.mem_singleton_self a)),
      ih hm]

section

variable (hfront : front.rtakeWhile (· != '\n') = []) (htext : '\n' ∉ text)

include hfront htext in
/-- Where an offset stands that is on a line. -/
theorem at_of_le {n : Nat} (hle : n ≤ bytesOf text) (rest : List Char) :
    lineAt (front ++ (text ++ rest)) (bytesOf front + n) = front.count '\n' ∧
      columnAt (front ++ (text ++ rest)) (bytesOf front + n) = unitsOf (before n text) := by
  have hbefore : before (bytesOf front + n) (front ++ (text ++ rest)) = front ++ before n text := by
    rw [Text.before_append, Text.before_append_of_le hle]
  have hnone : '\n' ∉ before n text := fun h => htext (Text.before_subset n text h)
  rw [lineAt, columnAt, hbefore, List.count_append, List.count_eq_zero.mpr hnone,
    rtakeWhile_append_of_all hfront fun a ha => by
      rw [bne_iff_ne]
      rintro rfl
      exact hnone ha]
  exact ⟨rfl, rfl⟩

/-- An offset behind a line is on a later one. -/
theorem lt_lineAt (front text rest : List Char) {e : Nat} (h : bytesOf front + bytesOf text < e) :
    front.count '\n' < lineAt (front ++ (text ++ '\n' :: rest)) e := by
  obtain ⟨n, rfl⟩ := Nat.exists_eq_add_of_lt h
  have hsplit : front ++ (text ++ '\n' :: rest) = (front ++ (text ++ ['\n'])) ++ rest := by simp
  rw [lineAt, hsplit, Nat.add_right_comm, ← bytesOf_append_newline, Text.before_append]
  simp only [List.count_append, List.count_cons_self]
  omega

variable (hsorted : es.Pairwise (· ≤ ·))
  (hrest : ∀ d ∈ rest.head?, d = '\n')
  (hes : ∀ e ∈ es, bytesOf front ≤ e ∧ IsOffset (text ++ rest) (e - bytesOf front))

include hfront htext hsorted hrest hes

/-- The offsets on the first line of a text. -/
theorem filter_lineAt :
    es.filter (lineAt (front ++ (text ++ rest)) · == front.count '\n') =
      es.takeWhile (· ≤ bytesOf front + bytesOf text) := by
  refine Text.filter_eq_takeWhile (fun e he => ?_) fun e he => ?_
  · obtain ⟨n, hn, rfl⟩ := exists_eq_add_of_mem_takeWhile (fun e he => (hes e he).1) he
    rw [(at_of_le hfront htext hn rest).1, beq_self_eq_true]
  · have hlt := lt_of_mem_dropWhile hsorted he
    cases rest with
    | nil =>
      have hwithin := (hes e (List.dropWhile_subset _ he)).2.le
      rw [List.append_nil] at hwithin
      omega
    | cons d rest =>
      obtain rfl := hrest d rfl
      have hline := lt_lineAt front text rest hlt
      rw [beq_eq_false_iff_ne]
      omega

/-- The first line of a text is cut for itself. -/
theorem exists_first_row : ∃ pieces, pieces ≠ [] ∧ pieces.flatten = text ∧
    insertChecks (bytesOf front) (es.takeWhile (· ≤ bytesOf front + bytesOf text)) text =
      check.toList.intercalate pieces ∧
    (es.takeWhile (· ≤ bytesOf front + bytesOf text)).map
        (fun e => unitsOf (before (e - bytesOf front) text)) = joints unitsOf 0 pieces ∧
    columnsOn (front ++ (text ++ rest)) es (front.count '\n') = joints unitsOf 0 pieces := by
  have hhere : ∀ e ∈ es.takeWhile (· ≤ bytesOf front + bytesOf text),
      ∃ n ≤ bytesOf text, e = bytesOf front + n := fun e =>
    exists_eq_add_of_mem_takeWhile fun e he => (hes e he).1
  have hcuts : ∀ e ∈ es.takeWhile (· ≤ bytesOf front + bytesOf text),
      bytesOf front ≤ e ∧ IsOffset text (e - bytesOf front) := by
    intro e he
    obtain ⟨n, hn, rfl⟩ := hhere e he
    obtain ⟨hlow, hoffset⟩ := hes _ (List.takeWhile_subset _ he)
    rw [Nat.add_sub_cancel_left] at hoffset ⊢
    exact ⟨hlow, Text.isOffset_of_append_of_le hoffset hn⟩
  obtain ⟨pieces, hne, rfl, hjoints⟩ := Text.exists_joints_eq
    (hsorted.sublist (List.takeWhile_sublist _)) hcuts
  have hcolumns : (es.takeWhile (· ≤ bytesOf front + bytesOf pieces.flatten)).map
      (fun e => unitsOf (before (e - bytesOf front) pieces.flatten)) =
        joints unitsOf 0 pieces := by
    have hunits := Text.map_unitsOf_joints [] pieces
    rw [← hjoints, ← Nat.zero_add (bytesOf front), Text.joints_add, List.map_map]
    simpa [Function.comp_def] using hunits
  refine ⟨pieces, hne, rfl, ?_, hcolumns, ?_⟩
  · rw [← hjoints]
    exact insertChecks_joints _ hne
  · rw [columnsOn, filter_lineAt hfront htext hsorted hrest hes, ← hcolumns]
    refine List.map_congr_left fun e he => ?_
    obtain ⟨n, hn, rfl⟩ := hhere e he
    rw [(at_of_le hfront htext hn rest).2, Nat.add_sub_cancel_left]

end

/-- A line of a text is cut for itself, in what is written and in the map. -/
structure Row (cs : List Char) (es : List Nat) (line : Nat) (checked : List Char)
    (segments : List Segment) (pieces : List (List Char)) : Prop where
  nonempty : pieces ≠ []
  checked : checked = check.toList.intercalate pieces
  columns : columnsOn cs es line = joints unitsOf 0 pieces
  segments : segments = segmentsOf line (joints unitsOf 0 pieces)

/-- A text without a line feed is cut as a whole. -/
theorem exists_row_of_notMem (hfront : front.rtakeWhile (· != '\n') = []) (htext : '\n' ∉ text)
    (hsorted : es.Pairwise (· ≤ ·))
    (hes : ∀ e ∈ es, bytesOf front ≤ e ∧ IsOffset text (e - bytesOf front)) :
    ∃ checked segments pieces, lines (insertChecks (bytesOf front) es text) = [checked] ∧
      segmentLines (front.count '\n') (bytesOf front) es (lines text) = [segments] ∧
      pieces.flatten = text ∧
      Row (front ++ text) es (front.count '\n') checked segments pieces := by
  have hall : es.takeWhile (· ≤ bytesOf front + bytesOf text) = es := by
    rw [List.takeWhile_eq_self_iff]
    intro e he
    obtain ⟨hlow, hoffset⟩ := hes e he
    have hle := hoffset.le
    rw [decide_eq_true_eq]
    omega
  have hrest : ∀ d ∈ ([] : List Char).head?, d = '\n' := fun _ hd => nomatch hd
  have hes' : ∀ e ∈ es, bytesOf front ≤ e ∧ IsOffset (text ++ []) (e - bytesOf front) := by
    rwa [List.append_nil]
  obtain ⟨pieces, hne, hpieces, hinserted, hsegments, hcolumns⟩ :=
    exists_first_row hfront htext hsorted hrest hes'
  rw [hall] at hinserted hsegments
  rw [List.append_nil] at hcolumns
  have hlines : lines text = [text] := Text.splitAt_of_not_mem htext
  refine ⟨_, _, pieces, Text.splitAt_of_not_mem (newline_notMem_insertChecks htext _ _),
    by rw [hlines]; rfl, hpieces, hne, hinserted, hcolumns, ?_⟩
  rw [hall, hsegments]

/-- Behind a line, only the offsets behind it count. -/
theorem columnsOn_dropWhile (hfront : front.rtakeWhile (· != '\n') = []) (htext : '\n' ∉ text)
    (hes : ∀ e ∈ es, bytesOf front ≤ e) (rest : List Char) (h : front.count '\n' < line) :
    columnsOn (front ++ (text ++ rest)) (es.dropWhile (· ≤ bytesOf front + bytesOf text)) line =
      columnsOn (front ++ (text ++ rest)) es line := by
  have hnone : (es.takeWhile (· ≤ bytesOf front + bytesOf text)).filter
      (lineAt (front ++ (text ++ rest)) · == line) = [] := by
    rw [List.filter_eq_nil_iff]
    intro e he
    obtain ⟨n, hn, rfl⟩ := exists_eq_add_of_mem_takeWhile hes he
    rw [(at_of_le hfront htext hn rest).1, beq_iff_eq]
    exact h.ne
  conv_rhs => rw [columnsOn, ← List.takeWhile_append_dropWhile
    (p := (· ≤ bytesOf front + bytesOf text)) (l := es), List.filter_append, hnone]
  rw [List.nil_append, columnsOn]

/-- The offsets behind a line are offsets of what is behind it. -/
theorem isOffset_of_mem_dropWhile (hsorted : es.Pairwise (· ≤ ·))
    (hes : ∀ e ∈ es, bytesOf front ≤ e ∧ IsOffset (text ++ '\n' :: rest) (e - bytesOf front)) :
    ∀ e ∈ es.dropWhile (· ≤ bytesOf front + bytesOf text),
      bytesOf (front ++ (text ++ ['\n'])) ≤ e ∧
        IsOffset rest (e - bytesOf (front ++ (text ++ ['\n']))) := by
  intro e he
  have hlt := lt_of_mem_dropWhile hsorted he
  have hoffset := (hes e (List.dropWhile_subset _ he)).2
  obtain ⟨n, rfl⟩ := Nat.exists_eq_add_of_lt hlt
  have hmoved : bytesOf front + bytesOf text + n + 1 - bytesOf front =
      bytesOf (text ++ ['\n']) + n := by
    rw [Text.bytesOf_append, show bytesOf ['\n'] = 1 from rfl]
    omega
  rw [List.append_cons, hmoved] at hoffset
  rw [bytesOf_append_newline, Nat.add_right_comm _ n, Nat.add_sub_cancel_left]
  exact ⟨Nat.le_add_right _ _, Text.isOffset_of_append hoffset⟩

/-- Every line is cut for itself. -/
theorem exists_row (hfront : front.rtakeWhile (· != '\n') = []) (hsorted : es.Pairwise (· ≤ ·))
    (hes : ∀ e ∈ es, bytesOf front ≤ e ∧ IsOffset cs (e - bytesOf front))
    (hline : (lines cs)[k]? = some text) :
    ∃ checked segments pieces, (lines (insertChecks (bytesOf front) es cs))[k]? = some checked ∧
      (segmentLines (front.count '\n') (bytesOf front) es (lines cs))[k]? = some segments ∧
      pieces.flatten = text ∧
      Row (front ++ cs) es (front.count '\n' + k) checked segments pieces := by
  induction k generalizing front es cs with
  | zero =>
    by_cases hbreak : '\n' ∈ cs
    · obtain ⟨first, rest, rfl, hfirst⟩ := List.eq_append_cons_of_mem hbreak
      rw [lines_append_newline hfirst] at hline ⊢
      obtain rfl := Option.some.inj hline
      obtain ⟨pieces, hne, hpieces, hinserted, hsegments, hcolumns⟩ :=
        exists_first_row hfront hfirst hsorted (by simp) hes
      rw [insertChecks_append_newline,
        lines_append_newline (newline_notMem_insertChecks hfirst _ _)]
      exact ⟨_, _, pieces, rfl, rfl, hpieces, hne, hinserted, hcolumns, by rw [hsegments]; rfl⟩
    · obtain ⟨checked, segments, pieces, hchecked, hsegments, hpieces, hrow⟩ :=
        exists_row_of_notMem hfront hbreak hsorted hes
      rw [show lines cs = [cs] from Text.splitAt_of_not_mem hbreak] at hline
      obtain rfl := Option.some.inj hline
      exact ⟨checked, segments, pieces, by rw [hchecked]; rfl, by rw [hsegments]; rfl, hpieces,
        hrow⟩
  | succ k ih =>
    by_cases hbreak : '\n' ∈ cs
    · obtain ⟨first, rest, rfl, hfirst⟩ := List.eq_append_cons_of_mem hbreak
      rw [lines_append_newline hfirst] at hline ⊢
      -- what is behind the line feed is a text of its own, behind a longer front
      have hfront' : (front ++ (first ++ ['\n'])).rtakeWhile (· != '\n') = [] := by
        rw [← List.append_assoc, List.rtakeWhile_concat_neg _ _ _ (by decide)]
      have hcount : (front ++ (first ++ ['\n'])).count '\n' = front.count '\n' + 1 := by
        rw [List.count_append, List.count_append, List.count_eq_zero.mpr hfirst, Nat.zero_add]
        rfl
      obtain ⟨checked, segments, pieces, hchecked, hsegments, hpieces, hrow⟩ :=
        ih hfront' (hsorted.sublist (List.dropWhile_sublist _))
          (isOffset_of_mem_dropWhile hsorted hes) hline
      rw [bytesOf_append_newline] at hchecked hsegments
      rw [hcount] at hsegments
      rw [insertChecks_append_newline,
        lines_append_newline (newline_notMem_insertChecks hfirst _ _)]
      refine ⟨checked, segments, pieces, hchecked, hsegments, hpieces, hrow.nonempty, hrow.checked,
        ?_, ?_⟩
      · rw [← hrow.columns, hcount, ← columnsOn_dropWhile hfront hfirst (fun e he => (hes e he).1) _
          (by omega)]
        simp [Nat.add_assoc, Nat.add_comm 1 k]
      · rw [hrow.segments, hcount, Nat.add_assoc, Nat.add_comm 1 k]
    · rw [show lines cs = [cs] from Text.splitAt_of_not_mem hbreak] at hline
      cases hline

open SourceMap (Sorted insertSegment segmentAt?)

/-- The segment of a line that sends a column to one of the line in the source. -/
def segmentTo (line : Nat) (place : Nat × Nat) : Segment :=
  ⟨place.1.toUInt32, 0, line.toUInt32, place.2.toUInt32, none⟩

/-- Where the checks on a line start and stop, each place with the column that it comes from, when
some checks stand before them. -/
def places (checks : Nat) (columns : List Nat) : List (Nat × Nat) :=
  (columns.zipIdx checks).flatMap fun (column, k) =>
    [(column + k * checkWidth, column), (column + (k + 1) * checkWidth, column)]

/-- Each column gives two places, where its check starts and where it stops. -/
theorem places_cons (checks column : Nat) (columns : List Nat) :
    places checks (column :: columns) = (column + checks * checkWidth, column) ::
      (column + (checks + 1) * checkWidth, column) :: places (checks + 1) columns := rfl

/-- The places of more columns follow those of the first ones, moved by the checks before them. -/
theorem places_append (checks : Nat) (columns more : List Nat) :
    places checks (columns ++ more) =
      places checks columns ++ places (checks + columns.length) more := by
  rw [places, List.zipIdx_append, List.flatMap_append]
  rfl

/-- A place is where one of the checks is. -/
theorem bounds_of_mem_places {p : Nat × Nat} {checks : Nat} (h : p ∈ places checks columns) :
    ∃ c ∈ columns, c + checks * checkWidth ≤ p.1 ∧
      p.1 ≤ c + (checks + columns.length) * checkWidth := by
  obtain ⟨⟨c, k⟩, hmem, hp⟩ := List.mem_flatMap.mp h
  obtain ⟨hlow, hhigh, hc⟩ := List.mem_zipIdx hmem
  refine ⟨c, hc ▸ List.getElem_mem _, ?_⟩
  have hleft := Nat.mul_le_mul_right checkWidth hlow
  have hright := Nat.mul_le_mul_right checkWidth (show k + 1 ≤ checks + columns.length by omega)
  have hstep : k * checkWidth ≤ (k + 1) * checkWidth := Nat.mul_le_mul_right _ (Nat.le_succ k)
  simp only [List.mem_cons, List.not_mem_nil, or_false] at hp
  rcases hp with rfl | rfl <;> dsimp only <;> omega

/-- Places stand in order. -/
theorem sorted_places (h : columns.Pairwise (· ≤ ·)) (checks : Nat) :
    (places checks columns).Pairwise fun p q => p.1 ≤ q.1 := by
  induction columns generalizing checks with
  | nil => exact .nil
  | cons c columns ih =>
    obtain ⟨hfirst, hcolumns⟩ := List.pairwise_cons.mp h
    have hstep : checks * checkWidth ≤ (checks + 1) * checkWidth :=
      Nat.mul_le_mul_right _ (Nat.le_succ checks)
    have hlater : ∀ p ∈ places (checks + 1) columns, c + (checks + 1) * checkWidth ≤ p.1 := by
      intro p hp
      obtain ⟨d, hd, hlow, -⟩ := bounds_of_mem_places hp
      have := hfirst d hd
      omega
    rw [places_cons]
    refine .cons (List.forall_mem_cons.mpr ⟨?_, fun p hp => ?_⟩) (.cons hlater (ih hcolumns _))
    · dsimp only
      omega
    · have := hlater p hp
      dsimp only
      omega

/-- Segments in order are inserted as they stand. -/
theorem foldl_insertSegment {segments : List Segment} (more : List Segment)
    (h : Sorted (segments ++ more)) :
    more.foldl (fun line s => insertSegment s line) segments = segments ++ more := by
  induction more generalizing segments with
  | nil => rw [List.foldl_nil, List.append_nil]
  | cons s more ih =>
    have hbefore : ∀ r ∈ segments, r.generatedColumn ≤ s.generatedColumn := fun r hr =>
      (List.pairwise_append.mp h).2.2 r hr s List.mem_cons_self
    rw [List.foldl_cons, SourceMap.insertSegment_eq_concat hbefore,
      ih (by rwa [List.append_assoc, List.singleton_append]), List.append_assoc,
      List.singleton_append]

/-- Columns that are 32-bit numbers. -/
def Narrow (columns : List Nat) : Prop :=
  ∀ c ∈ columns, c + columns.length * checkWidth < UInt32.size

/-- A segment goes to its column if that fits. -/
theorem toNat_column_segmentTo {p : Nat × Nat} (h : p.1 < UInt32.size) :
    (segmentTo line p).generatedColumn.toNat = p.1 := UInt32.toNat_ofNat_of_lt' h

/-- All places fit where the columns do. -/
theorem lt_of_mem_places (hnarrow : Narrow columns) {p : Nat × Nat}
    (h : p ∈ (0, 0) :: places 0 columns) : p.1 < UInt32.size := by
  rcases List.mem_cons.mp h with rfl | h
  · decide
  · obtain ⟨c, hc, -, hle⟩ := bounds_of_mem_places h
    have := hnarrow c hc
    rw [Nat.zero_add] at hle
    omega

/-- A line has a segment at its start, and one where each check starts and stops. -/
theorem segmentsOf_eq (hsorted : columns.Pairwise (· ≤ ·)) (hnarrow : Narrow columns) :
    segmentsOf line columns = ((0, 0) :: places 0 columns).map (segmentTo line) := by
  have hplaces : ((0, 0) :: places 0 columns).Pairwise fun p q => p.1 ≤ q.1 :=
    .cons (fun p _ => Nat.zero_le _) (sorted_places hsorted 0)
  have hsegments : Sorted (((0, 0) :: places 0 columns).map (segmentTo line)) := by
    refine List.pairwise_map.mpr (hplaces.imp_of_mem fun {p q} hp hq hle => ?_)
    rw [UInt32.le_iff_toNat_le, toNat_column_segmentTo (lt_of_mem_places hnarrow hp),
      toNat_column_segmentTo (lt_of_mem_places hnarrow hq)]
    exact hle
  rw [List.map_cons, ← List.singleton_append] at hsegments ⊢
  rw [← foldl_insertSegment _ hsegments, segmentsOf, places, List.map_flatMap]
  rfl

/-- The last place up to a column is where a column of the line comes from. -/
theorem segmentAt?_map {front back : List (Nat × Nat)} {column : UInt32}
    (hsmall : ∀ p ∈ front ++ back, p.1 < UInt32.size) (hfront : ∀ p ∈ front, p.1 ≤ column.toNat)
    (hback : ∀ p ∈ back, column.toNat < p.1) :
    segmentAt? column ((front ++ back).map (segmentTo line)) =
      front.getLast?.map (segmentTo line) := by
  have hhead : ∀ s ∈ (back.map (segmentTo line)).head?,
      decide (s.generatedColumn ≤ column) = false := by
    intro s hs
    obtain ⟨p, hp, rfl⟩ := List.mem_map.mp (List.mem_of_mem_head? hs)
    rw [decide_eq_false_iff_not, UInt32.le_iff_toNat_le,
      toNat_column_segmentTo (hsmall p (List.mem_append_right _ hp))]
    exact Nat.not_le.mpr (hback p hp)
  have hall : (front.map (segmentTo line)).takeWhile (·.generatedColumn ≤ column) =
      front.map (segmentTo line) := by
    rw [List.takeWhile_eq_self_iff]
    intro s hs
    obtain ⟨p, hp, rfl⟩ := List.mem_map.mp hs
    rw [decide_eq_true_eq, UInt32.le_iff_toNat_le,
      toNat_column_segmentTo (hsmall p (List.mem_append_left _ hp))]
    exact hfront p hp
  rw [segmentAt?, List.map_append, Text.takeWhile_append_of_head hhead, hall, List.getLast?_map]

/-- The last of some columns in order is the greatest. -/
theorem foldr_max_concat (h : ∀ d ∈ columns, d ≤ c) : (columns ++ [c]).foldr max 0 = c := by
  rw [List.foldr_append, List.foldr_cons, List.foldr_nil, Nat.max_zero]
  induction columns with
  | nil => rfl
  | cons d columns ih =>
    obtain ⟨hd, hcolumns⟩ := List.forall_mem_cons.mp h
    rw [List.foldr_cons, ih hcolumns, Nat.max_eq_right hd]

/-- The last place is that of the last column. -/
theorem exists_getLast?_places (h : columns.Pairwise (· ≤ ·)) :
    ∃ p, ((0, 0) :: places 0 columns).getLast? = some p ∧ p.2 = columns.foldr max 0 := by
  rcases List.eq_nil_or_concat' columns with rfl | ⟨before, c, rfl⟩
  · exact ⟨_, rfl, rfl⟩
  · obtain ⟨-, -, hbefore⟩ := List.pairwise_append.mp h
    rw [foldr_max_concat fun d hd => hbefore d hd c (List.mem_singleton_self c), places_append,
      places_cons]
    refine ⟨(c + (0 + before.length + 1) * checkWidth, c), ?_, rfl⟩
    rw [show places (0 + before.length + 1) [] = [] from rfl, List.append_cons, ← List.cons_append,
      List.getLast?_concat]

section

variable (hsorted : columns.Pairwise (· ≤ ·)) (hnarrow : Narrow columns)

include hsorted hnarrow

/-- What was on the line comes from the last cut before it. -/
theorem segmentAt?_kept {column : UInt32}
    (h : column.toNat = c + checkWidth * columns.countP (· ≤ c)) :
    ∃ p ∈ (0, 0) :: places 0 columns,
      segmentAt? column (segmentsOf line columns) = some (segmentTo line p) ∧
        p.2 = (columns.filter (· ≤ c)).foldr max 0 := by
  have hsplit : columns = columns.takeWhile (· ≤ c) ++ columns.dropWhile (· ≤ c) :=
    List.takeWhile_append_dropWhile.symm
  have hcount : columns.countP (· ≤ c) = (columns.takeWhile (· ≤ c)).length := by
    rw [List.countP_eq_length_filter, filter_le_eq_takeWhile hsorted]
  rw [filter_le_eq_takeWhile hsorted]
  rw [hcount, Nat.mul_comm] at h
  have hplaces : (0, 0) :: places 0 columns = ((0, 0) :: places 0 (columns.takeWhile (· ≤ c))) ++
      places (columns.takeWhile (· ≤ c)).length (columns.dropWhile (· ≤ c)) := by
    conv_lhs => rw [hsplit, places_append, Nat.zero_add]
    rfl
  obtain ⟨p, hp, hcolumn⟩ := exists_getLast?_places
    (hsorted.sublist (List.takeWhile_sublist (· ≤ c)))
  have hmem : p ∈ (0, 0) :: places 0 columns := by
    rw [hplaces]
    exact List.mem_append_left _ (List.mem_of_getLast? hp)
  refine ⟨p, hmem, ?_, hcolumn⟩
  rw [segmentsOf_eq hsorted hnarrow, hplaces, segmentAt?_map, hp, Option.map_some]
  · intro q hq
    rw [← hplaces] at hq
    exact lt_of_mem_places hnarrow hq
  · intro q hq
    rcases List.mem_cons.mp hq with rfl | hq
    · exact Nat.zero_le _
    · obtain ⟨d, hd, -, hle⟩ := bounds_of_mem_places hq
      have hdle : d ≤ c := by simpa using List.mem_takeWhile_imp hd
      rw [Nat.zero_add] at hle
      omega
  · intro q hq
    obtain ⟨d, hd, hle, -⟩ := bounds_of_mem_places hq
    have hlt := lt_of_mem_dropWhile hsorted hd
    omega

/-- What is in a check comes from the cut that the check was written at. -/
theorem segmentAt?_inserted (hi : i < columns.length) (hj : j < checkWidth) {column : UInt32}
    (h : column.toNat = columns[i] + i * checkWidth + j) :
    ∃ p ∈ (0, 0) :: places 0 columns,
      segmentAt? column (segmentsOf line columns) = some (segmentTo line p) ∧
        p.2 = columns[i] := by
  have hplaces : (0, 0) :: places 0 columns =
      ((0, 0) :: places 0 (columns.take i) ++ [(columns[i] + i * checkWidth, columns[i])]) ++
        (columns[i] + (i + 1) * checkWidth, columns[i]) ::
          places (i + 1) (columns.drop (i + 1)) := by
    conv_lhs => rw [← List.take_append_drop i columns, List.drop_eq_getElem_cons hi, places_append,
      places_cons, List.length_take_of_le hi.le, Nat.zero_add]
    simp
  obtain ⟨hbefore, hrest⟩ := List.pairwise_append.mp
    (show (columns.take i ++ columns[i] :: columns.drop (i + 1)).Pairwise (· ≤ ·) by
      rwa [← List.drop_eq_getElem_cons hi, List.take_append_drop]) |>.2
  have hafter := (List.pairwise_cons.mp hbefore).1
  refine ⟨(columns[i] + i * checkWidth, columns[i]), ?_, ?_, rfl⟩
  · rw [hplaces]
    simp
  rw [segmentsOf_eq hsorted hnarrow, hplaces, segmentAt?_map, List.getLast?_concat,
    Option.map_some]
  · intro q hq
    rw [← hplaces] at hq
    exact lt_of_mem_places hnarrow hq
  · intro q hq
    rcases List.mem_append.mp hq with hq | hq
    · rcases List.mem_cons.mp hq with rfl | hq
      · exact Nat.zero_le _
      · obtain ⟨d, hd, -, hle⟩ := bounds_of_mem_places hq
        have hdle := hrest d hd _ List.mem_cons_self
        rw [Nat.zero_add, List.length_take_of_le hi.le] at hle
        omega
    · obtain rfl := List.mem_singleton.mp hq
      dsimp only
      omega
  · have hstep : (i + 1) * checkWidth = i * checkWidth + checkWidth := by
      rw [Nat.add_mul, Nat.one_mul]
    intro q hq
    rcases List.mem_cons.mp hq with rfl | hq
    · dsimp only
      omega
    · obtain ⟨d, hd, hle, -⟩ := bounds_of_mem_places hq
      have hdle := hafter d hd
      omega

end

/-- No place stands before the column that it comes from. -/
theorem snd_le_of_mem_places {p : Nat × Nat} (h : p ∈ (0, 0) :: places 0 columns) : p.2 ≤ p.1 := by
  rcases List.mem_cons.mp h with rfl | h
  · exact Nat.le_refl _
  · obtain ⟨⟨c, k⟩, -, hp⟩ := List.mem_flatMap.mp h
    simp only [List.mem_cons, List.not_mem_nil, or_false] at hp
    rcases hp with rfl | rfl <;> exact Nat.le_add_right _ _

/-- A line with checks at some columns. What was on the line moves by the width of the checks up to
there, and every check stands behind what was before its column and the checks before. -/
structure Shifted (columns : List Nat) (text checked : List Char) : Prop where
  kept : ∀ c, (codeUnitsOf checked)[c + checkWidth * columns.countP (· ≤ c)]? =
    (codeUnitsOf text)[c]?
  inserted : ∀ (i : Nat) (hi : i < columns.length), ∀ j < checkWidth,
    (codeUnitsOf checked)[columns[i] + i * checkWidth + j]? = (codeUnitsOf check.toList)[j]?

/-- A map that knows where what is on a line with checks comes from: what was on the line before
from the last of the columns up to there or from the start of the line, and what is in a check from
the column of the check. -/
structure Traces (m : SourceMap) (path : String) (line : UInt32) (columns : List Nat) : Prop where
  kept : ∀ (c : Nat) (column : UInt32),
    column.toNat = c + checkWidth * columns.countP (· ≤ c) →
      ∃ origin, m.origin? line column = some ⟨path, line, origin, none⟩ ∧
        origin.toNat = (columns.filter (· ≤ c)).foldr max 0
  inserted : ∀ (i : Nat) (hi : i < columns.length), ∀ j < checkWidth, ∀ column : UInt32,
    column.toNat = columns[i] + i * checkWidth + j →
      ∃ origin, m.origin? line column = some ⟨path, line, origin, none⟩ ∧
        origin.toNat = columns[i]

/-- A module with a check written at some offsets, and a map that knows of the checks. -/
structure Checked (cs : List Char) (es : List Nat) (path : String) (t : Transformed) : Prop where
  cut : ∃ pieces, pieces.flatten = cs ∧ joints bytesOf 0 pieces = es ∧
    t.code.toList = check.toList.intercalate pieces
  line : ∀ (line : UInt32) (text : List Char), (lines cs)[line.toNat]? = some text →
    ∃ checked, (lines t.code.toList)[line.toNat]? = some checked ∧
      Shifted (columnsOn cs es line.toNat) text checked ∧
      (unitsOf checked < UInt32.size → Traces t.map path line (columnsOn cs es line.toNat))

section

variable {checked : List Char} {segments : List Segment}

/-- The code units of pieces with something between them are those of the pieces, with that between
them. -/
theorem codeUnitsOf_intercalate (sep : List Char) (pieces : List (List Char)) :
    codeUnitsOf (sep.intercalate pieces) =
      (codeUnitsOf sep).intercalate (pieces.map codeUnitsOf) :=
  Text.intercalate_map codeUnitsOf rfl Text.codeUnitsOf_append sep pieces

/-- The code units of pieces are those of all of them together. -/
theorem flatten_map_codeUnitsOf (pieces : List (List Char)) :
    (pieces.map codeUnitsOf).flatten = codeUnitsOf pieces.flatten := by
  induction pieces with
  | nil => rfl
  | cons p pieces ih =>
    rw [List.map_cons, List.flatten_cons, ih, List.flatten_cons, Text.codeUnitsOf_append]

namespace Row

variable (h : Row cs es line checked segments pieces)

include h

/-- The columns of the checks on a line are in order. -/
theorem sorted : (columnsOn cs es line).Pairwise (· ≤ ·) :=
  h.columns ▸ Text.sorted_joints _ _ _

/-- The checks on a line are written at their columns. -/
theorem shifted : Shifted (columnsOn cs es line) pieces.flatten checked := by
  have hwidth : (codeUnitsOf check.toList).length = checkWidth := Text.length_codeUnitsOf _
  rw [h.columns, h.checked, ← Text.joints_codeUnitsOf]
  constructor
  · intro c
    have hkept := Text.getElem?_intercalate (codeUnitsOf check.toList) (pieces.map codeUnitsOf) 0 c
    rw [hwidth, flatten_map_codeUnitsOf] at hkept
    rw [codeUnitsOf_intercalate, ← hkept]
    simp
  · intro i hi j hj
    have hinserted := Text.getElem?_intercalate_joint (codeUnitsOf check.toList)
      (pieces.map codeUnitsOf) 0 hi (hwidth ▸ hj)
    rw [hwidth, Nat.sub_zero] at hinserted
    rw [codeUnitsOf_intercalate, hinserted]

/-- A line that is not too wide has columns that are 32-bit numbers. -/
theorem narrow (hwidth : unitsOf checked < UInt32.size) : Narrow (columnsOn cs es line) := by
  have hunits : unitsOf checked = unitsOf pieces.flatten +
      checkWidth * (joints unitsOf 0 pieces).length := by
    rw [← Text.length_codeUnitsOf, h.checked, codeUnitsOf_intercalate,
      Text.length_intercalate _ (by simpa using h.nonempty), flatten_map_codeUnitsOf,
      Text.joints_codeUnitsOf, Text.length_codeUnitsOf, Text.length_codeUnitsOf]
    rfl
  intro c hc
  rw [h.columns] at hc ⊢
  have hle := Text.le_of_mem_joints_add Text.unitsOf_append hc
  rw [Nat.mul_comm]
  omega

end Row

/-- A map of the segments of a line traces it. -/
theorem traces_of_segments {m : SourceMap} {line : UInt32} (hsources : m.sources = [path])
    (hlines : m.lines[line.toNat]? = some (segmentsOf line.toNat columns))
    (hsorted : columns.Pairwise (· ≤ ·)) (hnarrow : Narrow columns) :
    Traces m path line columns := by
  have horigin {column : UInt32} {p : Nat × Nat} (hp : p ∈ (0, 0) :: places 0 columns)
      (hat : segmentAt? column (segmentsOf line.toNat columns) = some (segmentTo line.toNat p)) :
      ∃ origin, m.origin? line column = some ⟨path, line, origin, none⟩ ∧
        origin.toNat = p.2 := by
    refine ⟨p.2.toUInt32, ?_, UInt32.toNat_ofNat_of_lt'
      ((snd_le_of_mem_places hp).trans_lt (lt_of_mem_places hnarrow hp))⟩
    simp [SourceMap.origin?, hlines, hat, segmentTo, hsources]
  constructor
  · intro c column hcolumn
    obtain ⟨p, hp, hat, hplace⟩ := segmentAt?_kept hsorted hnarrow hcolumn
    exact hplace ▸ horigin hp hat
  · intro i hi j hj column hcolumn
    obtain ⟨p, hp, hat, hplace⟩ := segmentAt?_inserted hsorted hnarrow hi hj hcolumn
    exact hplace ▸ horigin hp hat

end

/-- Checks at offsets between the characters of a module, in order. -/
theorem checked_insertChecks {code : String} (hsorted : es.Pairwise (· ≤ ·))
    (hes : ∀ e ∈ es, IsOffset code.toList e) (path : String) :
    Checked code.toList es path ⟨String.ofList (insertChecks 0 es code.toList),
      .ofLines path code (segmentLines 0 0 es (lines code.toList))⟩ where
  cut := by
    have hes' : ∀ e ∈ es, 0 ≤ e ∧ IsOffset code.toList (e - 0) := fun e he =>
      ⟨Nat.zero_le e, hes e he⟩
    obtain ⟨pieces, hne, hpieces, hjoints⟩ := Text.exists_joints_eq hsorted hes'
    refine ⟨pieces, hpieces, hjoints, ?_⟩
    rw [String.toList_ofList, ← hpieces, ← hjoints]
    exact insertChecks_joints 0 hne
  line := by
    intro line text htext
    have hes' : ∀ e ∈ es, bytesOf [] ≤ e ∧ IsOffset code.toList (e - bytesOf []) := fun e he =>
      ⟨Nat.zero_le e, hes e he⟩
    obtain ⟨checked, segments, pieces, hchecked, hsegments, rfl, hrow⟩ :=
      exists_row rfl hsorted hes' htext
    rw [List.count_nil, Nat.zero_add, List.nil_append] at hrow
    refine ⟨checked, by rwa [String.toList_ofList], hrow.shifted, fun hwidth => ?_⟩
    refine traces_of_segments rfl ?_ hrow.sorted (hrow.narrow hwidth)
    rw [hrow.columns, ← hrow.segments]
    exact hsegments

/-- The offsets where dynamic imports end are in order and between characters. -/
theorem sorted_ends (dialect : Dialect) (code : String) :
    (ends dialect code).Pairwise (· ≤ ·) ∧ ∀ e ∈ ends dialect code, IsOffset code.toList e := by
  constructor
  · exact (List.pairwise_mergeSort (by simpa using fun a b c => Nat.le_trans)
      (by simpa using Nat.le_total) _).imp (by simp)
  · intro e he
    obtain ⟨t, ht, rfl⟩ := List.mem_map.mp (List.mem_mergeSort.mp he)
    obtain ⟨hmem, himport⟩ := List.mem_filter.mp ht
    refine Grammar.isOffset_stop_parseAnyway hmem ?_
    rw [isDynamicImport, Bool.and_eq_true, beq_iff_eq] at himport
    simp [himport.1]

/-- A module with dynamic imports is rewritten: a check is written where each of them ends, and the
map knows of the checks. -/
theorem exists_rewrite? {code : String} {dialect : Dialect} (path : Path)
    (himport : Text.holds "import".toList code.toList = true) (hends : ends dialect code ≠ []) :
    ∃ t, rewrite? code path dialect = some t ∧
      Checked code.toList (ends dialect code) path.text t := by
  obtain ⟨hsorted, hes⟩ := sorted_ends dialect code
  refine ⟨_, ?_, checked_insertChecks hsorted hes path.text⟩
  rw [rewrite?, himport]
  split
  · contradiction
  · split
    · contradiction
    · rfl

/-- Behind a check on a line, everything comes from the end of the import. -/
theorem exists_rewrite?_lines :
    Text.holds "import".toList "'😀'; import('a');\nx(import(b), y);".toList = true ∧
      ends .plain "'😀'; import('a');\nx(import(b), y);" = [19, 32] ∧
      ∃ t, rewrite? "'😀'; import('a');\nx(import(b), y);" ⟨"a.mjs"⟩ .plain = some t ∧
        Checked "'😀'; import('a');\nx(import(b), y);".toList [19, 32] "a.mjs" t ∧
        ∃ origin, t.map.origin? 1 175 = some ⟨"a.mjs", 1, origin, none⟩ ∧ origin.toNat = 11 := by
  have himport :
      Text.holds "import".toList "'😀'; import('a');\nx(import(b), y);".toList = true := by
    decide +kernel
  have hends : ends .plain "'😀'; import('a');\nx(import(b), y);" = [19, 32] := by
    have hstops : ((Grammar.parseAnyway .plain
        "'😀'; import('a');\nx(import(b), y);").preorder.filter
          isDynamicImport).map (·.span.stop) = [19, 32] := by decide +kernel
    rw [ends, hstops, List.mergeSort_of_pairwise (by decide)]
  obtain ⟨t, hrewrite, hchecked⟩ := exists_rewrite? ⟨"a.mjs"⟩ himport (hends ▸ List.cons_ne_nil _ _)
  rw [hends] at hchecked
  refine ⟨himport, hends, t, hrewrite, hchecked, ?_⟩
  have hcolumns : columnsOn "'😀'; import('a');\nx(import(b), y);".toList [19, 32] 1 = [11] := by
    decide +kernel
  obtain ⟨checked, -, hshifted, htraces⟩ := hchecked.line 1 "x(import(b), y);".toList
    (by decide +kernel)
  rw [show (1 : UInt32).toNat = 1 from rfl, hcolumns] at hshifted htraces
  -- the line ends where its end has moved to
  have hwidth : checkWidth = 162 := by decide +kernel
  have hend := hshifted.kept 16
  rw [hwidth, show (codeUnitsOf "x(import(b), y);".toList)[16]? = none by decide +kernel,
    List.getElem?_eq_none_iff, Text.length_codeUnitsOf, show [11].countP (· ≤ 16) = 1 from rfl]
    at hend
  refine (htraces (hend.trans_lt (by decide))).kept 13 175 ?_
  rw [hwidth]
  rfl

end ScriptModules.DynamicImport

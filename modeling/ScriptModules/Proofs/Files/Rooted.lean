import ScriptModules.Proofs.Files.Walk

/-!
# Paths of files

The path of a file leads from the root to a name. The spelling that leaves out the pieces that lead
nowhere is no longer than others and leads to the same file.
-/

namespace ScriptModules

namespace Path

/-- The path from the root through some pieces. -/
def rooted (ps : List String) : Path := ⟨"/".intercalate ("" :: ps)⟩

/-- The first piece stands after the slash of the root. -/
theorem text_rooted_cons (piece : String) (ps : List String) :
    (rooted (piece :: ps)).text = "/" ++ piece ++ (rooted ps).text := by
  have hfirst : ∀ first : String, "/".intercalate (first :: ps) = first ++ (rooted ps).text := by
    intro first
    cases ps with
    | nil => simp [rooted]
    | cons second rest => simp [rooted, String.intercalate_cons_cons, String.append_assoc]
  rw [rooted, String.intercalate_cons_cons, hfirst, String.empty_append, String.append_assoc]

/-- The last piece stands after one more slash. -/
theorem text_rooted_concat (ps : List String) (last : String) :
    (rooted (ps ++ [last])).text = (rooted ps).text ++ "/" ++ last := by
  induction ps with
  | nil => simp [rooted]
  | cons piece rest ih =>
    rw [List.cons_append, text_rooted_cons, text_rooted_cons, ih]
    simp only [String.append_assoc]

/-- Each piece stands after its slash. -/
theorem toList_rooted (ps : List String) :
    (rooted ps).text.toList = ps.flatMap fun piece => '/' :: piece.toList := by
  induction ps with
  | nil => rfl
  | cons piece rest ih => simp [text_rooted_cons, ih]

/-- The pieces of a path from the root are those that it was made of, after an empty one. -/
theorem pieces_rooted {ps : List String} (h : ∀ piece ∈ ps, '/' ∉ piece.toList) :
    (rooted ps).pieces = "" :: ps := by
  refine pieces_intercalate (List.cons_ne_nil _ _) fun piece hpiece => ?_
  rcases List.mem_cons.mp hpiece with rfl | hpiece
  · simp
  · exact h piece hpiece

/-- A path from the root is made of its pieces. -/
theorem eq_rooted {p : Path} (h : p.isAbsolute = true) : p = rooted (p.pieces.drop 1) := by
  obtain ⟨-, rest, hrest⟩ := exists_pieces_of_isAbsolute h
  have htext := text_eq_intercalate p
  rw [hrest] at htext ⊢
  exact congrArg Path.mk htext

/-- Fewer pieces make no longer a path. -/
theorem utf8ByteSize_rooted_le {ps qs : List String} (h : ps.Sublist qs) :
    (rooted ps).text.utf8ByteSize ≤ (rooted qs).text.utf8ByteSize := by
  induction h with
  | slnil => exact Nat.le_refl _
  | cons piece _ ih =>
    rw [text_rooted_cons piece, String.utf8ByteSize_append]
    exact Nat.le_trans ih (Nat.le_add_left _ _)
  | cons_cons piece _ ih =>
    simp only [text_rooted_cons, String.utf8ByteSize_append]
    exact Nat.add_le_add_left ih _

/-- The parts of a path from the root are the root and what the pieces stand for. -/
theorem parts_rooted {ps : List String} (hne : ps ≠ []) (h : ∀ piece ∈ ps, '/' ∉ piece.toList) :
    (rooted ps).parts = .root :: ps.filterMap partOf? := by
  have htext : (rooted ps).text ≠ "" := by
    obtain ⟨piece, rest, rfl⟩ := List.exists_cons_of_ne_nil hne
    simp [text_rooted_cons]
  rw [parts_eq htext (pieces_rooted h)]
  rfl

/-- The spelling of an absolute path that leaves out the pieces that lead nowhere has its parts. -/
theorem parts_rooted_steps {p : Path} (h : p.isAbsolute = true) (hne : p.steps ≠ []) :
    (rooted p.steps).parts = p.parts := by
  obtain ⟨htext, rest, hrest⟩ := exists_pieces_of_isAbsolute h
  have hpart (piece : String) :
      (if (!isIdle piece) = true then partOf? piece else none) = partOf? piece := by
    unfold partOf?
    cases isIdle piece <;> rfl
  have hslash : ∀ piece ∈ p.steps, '/' ∉ piece.toList := by
    intro piece hpiece
    rw [← filter_pieces_of_isAbsolute h] at hpiece
    exact slash_not_mem_of_mem_pieces (List.mem_of_mem_drop (List.mem_filter.mp hpiece).1)
  rw [parts_rooted hne hslash, ← filter_pieces_of_isAbsolute h, List.filterMap_filter,
    funext hpart, parts_eq htext hrest, hrest]
  rfl

/-- The pieces of an absolute path that ends in a name. -/
structure Leads (p : Path) (front : List String) (name : String) : Prop where
  eq : p = rooted (front ++ [name])
  slash : ∀ piece ∈ front, '/' ∉ piece.toList
  isName : IsName name

variable {p : Path} {front : List String} {name : String}

/-- There is no slash in the pieces of a path that leads to a name. -/
theorem Leads.slash_not_mem (h : Leads p front name) :
    ∀ piece ∈ front ++ [name], '/' ∉ piece.toList := by
  intro piece hpiece
  rcases List.mem_append.mp hpiece with hpiece | hpiece
  · exact h.slash piece hpiece
  · rw [List.mem_singleton.mp hpiece]
    exact h.isName.slash

/-- A path that leads to a name is a path from the root with the name after its last slash. -/
theorem Leads.text_eq (h : Leads p front name) : p.text = (rooted front).text ++ "/" ++ name := by
  rw [h.eq, text_rooted_concat]

/-- The file of a path that leads to a name has this name. -/
theorem Leads.fileName?_eq (h : Leads p front name) : p.fileName? = some name := by
  have hname : fileName? ⟨(rooted front).text ++ "/" ++ name⟩ = some name :=
    fileName?_append h.isName
  rw [h.eq, ← hname, ← text_rooted_concat]

/-- A path that leads to a name ends in a name. -/
theorem Leads.endsInName (h : Leads p front name) : EndsInName p :=
  ⟨"" :: front, name, by rw [h.eq, pieces_rooted h.slash_not_mem]; rfl, h.isName.real⟩

/-- The parts of a path that leads to a name are the root, those of the front and the name. -/
theorem Leads.parts_eq (h : Leads p front name) :
    p.parts = .root :: front.filterMap partOf? ++ [.name name] := by
  rw [h.eq, parts_rooted (by simp) h.slash_not_mem, List.filterMap_append,
    List.filterMap_cons_some h.isName.partOf?]
  rfl

/-- The pieces that lead on. -/
theorem Leads.steps_eq (h : Leads p front name) :
    p.steps = front.filter (!isIdle ·) ++ [name] := by
  rw [steps, h.parts_eq, List.cons_append, List.drop_succ_cons, List.drop_zero, List.map_append,
    map_piece_filterMap_partOf?]
  rfl

/-- The spelling of a path that leaves out the pieces that lead nowhere. -/
theorem Leads.shortest (h : Leads p front name) :
    Leads (rooted p.steps) (front.filter (!isIdle ·)) name where
  eq := by rw [h.steps_eq]
  slash piece hpiece := h.slash piece (List.mem_filter.mp hpiece).1
  isName := h.isName

/-- A path that leads to a name starts at the root. -/
theorem Leads.isAbsolute (h : Leads p front name) : p.isAbsolute = true := by
  rw [isAbsolute_iff, h.parts_eq]
  rfl

/-- The pieces that lead on have all parts of the path. -/
theorem Leads.parts_shortest (h : Leads p front name) : (rooted p.steps).parts = p.parts :=
  parts_rooted_steps h.isAbsolute (by simp [h.steps_eq])

/-- The pieces of an absolute path all of which lead on. -/
structure Shortest (p : Path) (ps : List String) : Prop where
  eq : p = ofPieces ("" :: ps)
  slash : ∀ piece ∈ ps, '/' ∉ piece.toList
  real : ∀ piece ∈ ps, isIdle piece = false

/-- There is nothing to trim where no piece is idle. -/
theorem trimIdle_of_real {first : String} {ps : List String}
    (h : ∀ piece ∈ ps, isIdle piece = false) : trimIdle (first :: ps) = first :: ps := by
  have hreverse : ps.reverse.dropWhile isIdle = ps.reverse := by
    rw [List.dropWhile_eq_self_iff]
    intro hpos hidle
    have hreal := h _ (List.mem_reverse.mp (List.getElem_mem hpos))
    rw [hidle] at hreal
    cases hreal
  rw [trimIdle, hreverse, List.reverse_reverse]

/-- An empty first piece puts the others at the root. -/
theorem ofPieces_eq_rooted {ps : List String} (h : ps ≠ []) : ofPieces ("" :: ps) = rooted ps := by
  obtain ⟨piece, rest, rfl⟩ := List.exists_cons_of_ne_nil h
  rfl

namespace Shortest

variable {ps : List String}

/-- A path all of whose pieces lead on is that of its pieces. -/
theorem eq_rooted (h : Shortest p ps) (hne : ps ≠ []) : p = rooted ps := by
  rw [h.eq, ofPieces_eq_rooted hne]

/-- What stands above such a path is spelled so as well. -/
theorem parent? {q : Path} (h : Shortest p ps) (hq : p.parent? = some q) :
    Shortest q ps.dropLast := by
  by_cases hne : ps = []
  · have hroot : p.parent? = none := by
      rw [h.eq, hne]
      decide
    rw [hroot] at hq
    cases hq
  have hpieces := pieces_rooted h.slash
  rw [← h.eq_rooted hne] at hpieces
  have hfront : ∀ piece ∈ ps.dropLast, piece ∈ ps := fun _ => (List.dropLast_sublist ps).mem
  obtain ⟨second, rest, hps⟩ := List.exists_cons_of_ne_nil hne
  have hdrop : ("" :: ps).dropLast = "" :: ps.dropLast := by rw [hps]; rfl
  have hparent : p.parent? = some (ofPieces (trimIdle ("" :: ps).dropLast)) := by
    have htext : ¬ (p.text == "") = true := by
      rw [h.eq_rooted hne, hps, text_rooted_cons]
      simp
    rw [Path.parent?, if_neg htext, hpieces, trimIdle_of_real h.real, hps]
  rw [hparent, hdrop,
    trimIdle_of_real fun piece hpiece => h.real piece (hfront piece hpiece)] at hq
  exact ⟨(Option.some.inj hq).symm, fun piece hpiece => h.slash piece (hfront piece hpiece),
    fun piece hpiece => h.real piece (hfront piece hpiece)⟩

/-- Above a path all of whose pieces lead on there are only such paths. -/
theorem of_mem_ancestors {q : Path} (h : Shortest p ps) (hq : q ∈ p.ancestors) :
    ∃ qs, Shortest q qs :=
  Path.of_mem_ancestors (motive := fun q => ∃ qs, Shortest q qs)
    (fun _ _ ⟨_, hshortest⟩ hparent => ⟨_, hshortest.parent? hparent⟩) ⟨ps, h⟩ hq

/-- A piece that leads on, below such a path, is spelled so as well. -/
theorem concat {piece : String} (h : Shortest p ps) (hslash : '/' ∉ piece.toList)
    (hreal : isIdle piece = false) : Shortest (p.join piece) (ps ++ [piece]) where
  eq := by
    have hrelative : (⟨piece⟩ : Path).isAbsolute = false := isAbsolute_of_not_mem hslash
    rw [ofPieces_eq_rooted (by simp)]
    by_cases hne : ps = []
    · have hhead : ¬ (piece.toList.head? == some '/') = true := by
        simpa [isAbsolute] using hrelative
      rw [join, if_neg hhead, h.eq, hne]
      exact congrArg Path.mk (by simp [ofPieces, String.intercalate_cons_cons])
    · have hp := h.eq_rooted hne
      have htext : p.text ≠ "" := by
        obtain ⟨piece, rest, rfl⟩ := List.exists_cons_of_ne_nil hne
        simp [hp, text_rooted_cons]
      obtain ⟨first, rest, idle, hpieces, hidle, hjoin⟩ := pieces_join_of_relative htext hrelative
      rw [pieces_of_not_mem hslash] at hjoin
      rw [hp, pieces_rooted h.slash, List.cons_append] at hpieces
      obtain ⟨rfl, hps⟩ := List.cons.inj hpieces
      obtain rfl : idle = [] := by
        rw [List.eq_nil_iff_forall_not_mem]
        intro piece hpiece
        have hreal := h.real piece (hps ▸ List.mem_append_right _ hpiece)
        rw [hidle piece hpiece] at hreal
        cases hreal
      rw [List.append_nil] at hps
      rw [← hps] at hjoin
      exact congrArg Path.mk ((text_eq_intercalate _).trans (congrArg _ hjoin))
  slash piece' hpiece := by
    rcases List.mem_append.mp hpiece with hpiece | hpiece
    · exact h.slash piece' hpiece
    · exact List.mem_singleton.mp hpiece ▸ hslash
  real piece' hpiece := by
    rcases List.mem_append.mp hpiece with hpiece | hpiece
    · exact h.real piece' hpiece
    · exact List.mem_singleton.mp hpiece ▸ hreal

/-- A name below such a path is spelled so as well. -/
theorem join {name : String} (h : Shortest p ps) (hname : IsName name) :
    Shortest (p.join name) (ps ++ [name]) :=
  h.concat hname.slash hname.real

/-- No spelling of the same parts is shorter. -/
theorem utf8ByteSize_le {q : Path} (h : Shortest p ps) (hne : ps ≠ [])
    (hparts : q.parts = p.parts) : p.text.utf8ByteSize ≤ q.text.utf8ByteSize := by
  have hp : p.parts = .root :: ps.filterMap partOf? := by
    rw [h.eq_rooted hne, parts_rooted hne h.slash]
  have hq : q.isAbsolute = true := isAbsolute_iff.mpr (by rw [hparts, hp]; rfl)
  have hsteps : q.steps = ps := by
    rw [steps, hparts, hp, List.drop_succ_cons, List.drop_zero, map_piece_filterMap_partOf?,
      List.filter_eq_self]
    intro piece hpiece
    rw [h.real piece hpiece]
    rfl
  have hsublist : ps.Sublist (q.pieces.drop 1) := by
    rw [← hsteps, ← filter_pieces_of_isAbsolute hq]
    exact List.filter_sublist
  rw [h.eq_rooted hne, Path.eq_rooted hq]
  exact utf8ByteSize_rooted_le hsublist

end Shortest

/-- The spelling of the steps to a name has no other pieces. -/
theorem Leads.shortest_steps (h : Leads p front name) : Shortest (rooted p.steps) p.steps where
  eq := by rw [ofPieces_eq_rooted (by simp [h.steps_eq])]
  slash := by
    rw [h.steps_eq]
    exact h.shortest.slash_not_mem
  real piece hpiece := by
    rw [h.steps_eq] at hpiece
    rcases List.mem_append.mp hpiece with hpiece | hpiece
    · simpa using (List.mem_filter.mp hpiece).2
    · exact List.mem_singleton.mp hpiece ▸ h.isName.real

/-- Leaving out idle pieces makes a path no longer. -/
theorem Leads.utf8ByteSize_shortest_le (h : Leads p front name) :
    (rooted p.steps).text.utf8ByteSize ≤ p.text.utf8ByteSize :=
  h.shortest_steps.utf8ByteSize_le (by simp [h.steps_eq]) h.parts_shortest.symm

end Path

namespace Files.Tree

open ScriptModules.Path (isIdle IsName Leads rooted)

variable {t : Tree} {p : Path}

/-- A way whose steps were entered one by one: there are directories before its end. -/
def Entered (t : Tree) (way : List String) : Prop :=
  ∀ front, front <+: way → front ≠ way → t.at? front = some .directory

/-- The way that stays at the root was entered. -/
theorem entered_nil : Entered t [] := by
  intro front hfront hne
  exact absurd (List.prefix_nil.mp hfront) hne

/-- A way that was entered was entered before its last step. -/
theorem Entered.dropLast {way : List String} (h : Entered t way) : Entered t way.dropLast := by
  intro front hfront hne
  refine h front (hfront.trans (List.dropLast_prefix _)) ?_
  rintro rfl
  have hlength := hfront.length_le
  rw [List.length_dropLast] at hlength
  have hempty : front = [] := by
    rw [← List.length_eq_zero_iff]
    omega
  exact hne (by rw [hempty]; rfl)

/-- A name in a directory can be entered. -/
theorem Entered.concat {way : List String} (h : Entered t way)
    (hat : t.at? way = some .directory) (name : String) : Entered t (way ++ [name]) := by
  intro front hfront hne
  rcases List.prefix_concat_iff.mp hfront with heq | hprefix
  · exact absurd heq hne
  · by_cases heq : front = way
    · rw [heq, hat]
    · exact h front hprefix heq

/-- A way that follows pieces from one that was entered was entered. -/
theorem entered_of_follow {way way' ps : List String} (h : Entered t way)
    (hfollow : t.follow way ps = .ok way') : Entered t way' := by
  induction ps generalizing way with
  | nil => exact Except.ok.inj hfollow ▸ h
  | cons piece rest ih =>
    have hat := at?_of_follow_cons hfollow
    rw [follow, hat] at hfollow
    dsimp only at hfollow
    split at hfollow
    · exact ih h hfollow
    · split at hfollow
      · exact ih h.dropLast hfollow
      · split at hfollow
        · cases hfollow
        · exact ih (h.concat hat piece) hfollow

/-- Stepping up from a directory leads to a directory. -/
theorem Entered.at?_dropLast {way : List String} (h : Entered t way) :
    t.at? way.dropLast = some .directory := by
  cases way with
  | nil => rfl
  | cons first rest =>
    refine h _ (List.dropLast_prefix _) fun heq => ?_
    have hlength := congrArg List.length heq
    simp at hlength

/-- The path of a file ends in a name. -/
theorem exists_leads {way : List String} {bytes : List UInt8} (h : t.wayOf p = .ok way)
    (hat : t.at? way = some (.file bytes)) : ∃ front name, Leads p front name := by
  obtain ⟨-, habsolute, hfollow⟩ := wayOf_eq_ok h
  have hslash : ∀ piece ∈ p.pieces.drop 1, '/' ∉ piece.toList :=
    fun piece hpiece => Path.slash_not_mem_of_mem_pieces (List.mem_of_mem_drop hpiece)
  have hp := Path.eq_rooted habsolute
  rcases List.eq_nil_or_concat (p.pieces.drop 1) with hnil | ⟨front, name, hconcat⟩
  · rw [hnil] at hfollow
    obtain rfl := Except.ok.inj hfollow
    cases hat
  · rw [List.concat_eq_append] at hconcat
    rw [hconcat] at hfollow hslash hp
    obtain ⟨above, habove, hname⟩ := exists_of_follow_append hfollow
    have hdirectory := at?_of_follow_cons hname
    refine ⟨front, name, hp, fun piece hpiece => hslash piece (List.mem_append_left _ hpiece),
      hslash name (by simp), ?_, ?_⟩
    · rw [Bool.eq_false_iff]
      intro hidle
      rw [follow_cons_idle hdirectory hidle] at hname
      obtain rfl := Except.ok.inj hname
      rw [hat] at hdirectory
      cases hdirectory
    · rintro rfl
      have hup : t.follow above [".."] = .ok above.dropLast := by
        rw [follow, hdirectory]
        rfl
      obtain rfl := Except.ok.inj (hup.symm.trans hname)
      rw [(entered_of_follow entered_nil habove).at?_dropLast] at hat
      cases hat

/-- A text that can be read is that of a file on a way that can be followed. -/
theorem readText_eq_ok {text : String} (h : t.readText p = .ok text) :
    ∃ way bytes, t.wayOf p = .ok way ∧ t.at? way = some (.file bytes) ∧
      t.read p = .ok bytes ∧ Text.decode? bytes = some text := by
  cases hentry : t.entry p with
  | error cause => simp [readText, read, hentry, bind, Except.bind] at h
  | ok e =>
    obtain ⟨way, hway, hat⟩ := entry_eq_ok hentry
    cases e with
    | directory => simp [readText, read, hentry, bind, Except.bind, throw,
        throwThe, MonadExceptOf.throw] at h
    | file bytes =>
      have hread : t.read p = .ok bytes := by
        simp [read, hentry, bind, Except.bind, pure, Except.pure]
      refine ⟨way, bytes, hway, hat, hread, ?_⟩
      rw [readText, hread] at h
      cases hdecode : Text.decode? bytes with
      | none => simp [hdecode, bind, Except.bind, throw, throwThe, MonadExceptOf.throw] at h
      | some s => simpa [hdecode, bind, Except.bind, pure, Except.pure] using h

/-- A file is read under its shortest spelling as well. -/
theorem readText_shortest {front : List String} {name text : String} (hp : Leads p front name)
    (h : t.readText p = .ok text) : t.readText (rooted p.steps) = .ok text := by
  have hshort : ¬ TooLong p := by
    intro hlong
    rcases readText_of_tooLong (t := t) hlong with hread | hread <;> rw [hread] at h <;> cases h
  rcases readText_congr (t := t) hp.parts_shortest hp.shortest.endsInName hp.endsInName hshort with
    hread | ⟨hlong, -⟩
  · rw [hread, h]
  · exact absurd (Nat.lt_of_lt_of_le hlong hp.utf8ByteSize_shortest_le) hshort

end Files.Tree

end ScriptModules

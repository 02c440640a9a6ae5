import Mathlib.Data.List.TakeWhile
import ScriptModules.Path
import ScriptModules.Proofs.Text.Split

/-!
# The parts of a path

A path has the parts of its pieces. Its parent has all parts but the last, and a name below it one
part more.
-/

namespace ScriptModules.Path

/-- Pieces are what stands between the slashes. -/
theorem slash_not_mem_of_mem_pieces {p : Path} {piece : String} (h : piece ∈ p.pieces) :
    '/' ∉ piece.toList := by
  obtain ⟨cs, hcs, rfl⟩ := List.mem_map.mp h
  simpa using Text.not_mem_of_mem_splitAt hcs

/-- Even an empty path has a piece. -/
theorem pieces_ne_nil (p : Path) : p.pieces ≠ [] := by
  simpa [pieces] using Text.splitAt_ne_nil '/' p.text.toList

/-- A name is its only piece. -/
theorem pieces_of_not_mem {name : String} (h : '/' ∉ name.toList) : pieces ⟨name⟩ = [name] := by
  simp [pieces, Text.splitAt_of_not_mem h]

/-- The pieces of two texts with a slash between them are those of each. -/
theorem pieces_append (a b : String) :
    pieces ⟨a ++ "/" ++ b⟩ = pieces ⟨a⟩ ++ pieces ⟨b⟩ := by
  have hsplit : (a ++ "/" ++ b).toList = a.toList ++ '/' :: b.toList := by simp
  simp [pieces, hsplit, Text.splitAt_append_mark]

/-- Taking apart what was put together from pieces. -/
theorem pieces_intercalate {ps : List String} (hne : ps ≠ [])
    (h : ∀ piece ∈ ps, '/' ∉ piece.toList) : pieces ⟨"/".intercalate ps⟩ = ps := by
  induction ps with
  | nil => exact absurd rfl hne
  | cons first rest ih =>
    have hfirst := h first List.mem_cons_self
    cases rest with
    | nil => simpa using pieces_of_not_mem hfirst
    | cons second rest =>
      rw [String.intercalate_cons_cons, pieces_append, pieces_of_not_mem hfirst,
        ih (List.cons_ne_nil _ _) fun piece hpiece => h piece (List.mem_cons_of_mem _ hpiece)]
      rfl

/-- A path is its pieces with slashes between them. -/
theorem text_eq_intercalate (p : Path) : p.text = "/".intercalate p.pieces := by
  rw [← String.toList_inj, String.toList_intercalate, pieces, List.map_map]
  simpa using (Text.intercalate_splitAt '/' p.text.toList).symm

/-- Only the empty path has an empty piece and no other. -/
theorem text_eq_empty_of_pieces {p : Path} (h : p.pieces = [""]) : p.text = "" := by
  rw [text_eq_intercalate, h]
  rfl

/-- A path starts with another if its parts do. -/
theorem startsWith_iff {p base : Path} : p.startsWith base = true ↔ base.parts <+: p.parts :=
  List.isPrefixOf_iff_prefix

/-- The parts that the first piece stands for, when others follow it or it is not empty. -/
def start (first : String) : List Part :=
  if first == "" then [.root] else if first == "." then [.here] else (partOf? first).toList

/-- The first piece may stand for a root or for the current directory; the others stand for the same
parts in every place. -/
theorem parts_eq {p : Path} (hne : p.text ≠ "") {first : String} {rest : List String}
    (h : p.pieces = first :: rest) : p.parts = start first ++ rest.filterMap partOf? := by
  cases rest with
  | nil =>
    have hfirst : first ≠ "" := by
      rintro rfl
      exact hne (text_eq_empty_of_pieces h)
    rw [parts, h]
    simp [start, hfirst]
  | cons second rest =>
    rw [parts, h]
    rfl

/-- An empty path has no parts. -/
theorem parts_of_text_eq_empty {p : Path} (h : p.text = "") : p.parts = [] := by
  obtain ⟨text⟩ := p
  obtain rfl : text = "" := h
  decide

/-- The first piece stands for one part, which is the root if the piece is empty. -/
theorem exists_start_eq (first : String) :
    ∃ part, start first = [part] ∧ (part = .root → first = "") := by
  unfold start partOf? isIdle
  repeat' split
  all_goals simp_all

/-- Idle pieces stand for no parts. -/
theorem filterMap_partOf?_of_idle {ps : List String} (h : ∀ piece ∈ ps, isIdle piece = true) :
    ps.filterMap partOf? = [] := by
  rw [List.filterMap_eq_nil_iff]
  intro piece hpiece
  simp [partOf?, h piece hpiece]

/-- Trimming leaves out idle pieces at the end. -/
theorem exists_trimIdle (first : String) (rest : List String) : ∃ kept idle,
    trimIdle (first :: rest) = first :: kept ∧ rest = kept ++ idle ∧
      (∀ piece ∈ idle, isIdle piece = true) ∧ ∀ piece ∈ kept.getLast?, isIdle piece = false := by
  refine ⟨_, (rest.reverse.takeWhile isIdle).reverse, rfl, ?_, ?_, ?_⟩
  · rw [← List.reverse_append, List.takeWhile_append_dropWhile, List.reverse_reverse]
  · intro piece hpiece
    exact List.mem_takeWhile_imp (List.mem_reverse.mp hpiece)
  · intro piece hpiece
    rw [List.getLast?_reverse] at hpiece
    have := List.head?_dropWhile_not isIdle rest.reverse
    rw [hpiece] at this
    simpa using this

/-- Pieces that were trimmed make a path of the same parts. -/
theorem parts_ofPieces_trimIdle {first : String} {rest : List String}
    (h : ∀ piece ∈ first :: rest, '/' ∉ piece.toList) :
    (ofPieces (trimIdle (first :: rest))).parts = start first ++ rest.filterMap partOf? := by
  obtain ⟨kept, idle, htrim, hrest, hidle, -⟩ := exists_trimIdle first rest
  have hkept : rest.filterMap partOf? = kept.filterMap partOf? := by
    rw [hrest, List.filterMap_append, filterMap_partOf?_of_idle hidle, List.append_nil]
  have hslash : ∀ piece ∈ first :: kept, '/' ∉ piece.toList := by
    intro piece hpiece
    refine h piece ?_
    rw [hrest, ← List.cons_append]
    exact List.mem_append_left _ hpiece
  rw [htrim, hkept]
  by_cases hroot : first = "" ∧ kept = []
  · obtain ⟨rfl, rfl⟩ := hroot
    decide
  · have hof : ofPieces (first :: kept) = ⟨"/".intercalate (first :: kept)⟩ := by
      unfold ofPieces
      split
      · rename_i heq
        exact absurd (by simpa using heq) hroot
      · rfl
    have hpieces := pieces_intercalate (List.cons_ne_nil first kept) hslash
    rw [hof]
    refine parts_eq ?_ hpieces
    intro htext
    have htext' : pieces ⟨"/".intercalate (first :: kept)⟩ = [""] := by
      rw [show (⟨"/".intercalate (first :: kept)⟩ : Path) = ⟨""⟩ from congrArg _ htext]
      decide
    rw [hpieces] at htext'
    exact hroot (by simpa using htext')

/-- A path has one part more than its parent, and not the root. -/
theorem exists_parts_of_parent? {p q : Path} (h : p.parent? = some q) :
    ∃ part, part ≠ .root ∧ p.parts = q.parts ++ [part] := by
  unfold parent? at h
  split at h
  · cases h
  · rename_i hne
    obtain ⟨first, rest, hpieces⟩ := List.exists_cons_of_ne_nil (pieces_ne_nil p)
    obtain ⟨kept, idle, htrim, hrest, hidle, hlast⟩ := exists_trimIdle first rest
    have hparts : p.parts = start first ++ kept.filterMap partOf? := by
      rw [parts_eq (by simpa using hne) hpieces, hrest, List.filterMap_append,
        filterMap_partOf?_of_idle hidle, List.append_nil]
    have hslash : ∀ piece ∈ first :: kept, '/' ∉ piece.toList := by
      intro piece hpiece
      refine slash_not_mem_of_mem_pieces (p := p) ?_
      rw [hpieces, hrest, ← List.cons_append]
      exact List.mem_append_left _ hpiece
    rw [hpieces, htrim] at h
    cases kept with
    | nil =>
      dsimp only at h
      split at h
      · cases h
      · rename_i hfirst
        obtain rfl := Option.some.inj h
        obtain ⟨part, hpart, hroot⟩ := exists_start_eq first
        refine ⟨part, fun hpart => hfirst (by simpa using hroot hpart), ?_⟩
        rw [hparts, hpart, parts_of_text_eq_empty rfl]
        rfl
    | cons second more =>
      obtain rfl := Option.some.inj h
      obtain ⟨front, last, hfront⟩ : ∃ front last, second :: more = front ++ [last] :=
        ⟨_, _, (List.dropLast_concat_getLast (List.cons_ne_nil second more)).symm⟩
      have hreal : isIdle last = false := hlast last (by simp [hfront])
      obtain ⟨part, hpart, hroot⟩ : ∃ part, partOf? last = some part ∧ part ≠ .root := by
        by_cases hup : last = ".."
        · exact ⟨.up, by rw [partOf?, hreal, hup]; rfl, by simp⟩
        · exact ⟨.name last, by simp [partOf?, hreal, hup], by simp⟩
      have hdrop : (first :: second :: more).dropLast = first :: front := by
        rw [hfront, ← List.cons_append, List.dropLast_concat]
      refine ⟨part, hroot, ?_⟩
      rw [hdrop, parts_ofPieces_trimIdle, hparts, hfront, List.filterMap_append,
        List.filterMap_cons_some hpart, List.filterMap_nil, ← List.append_assoc]
      intro piece hpiece
      refine hslash piece ?_
      rw [hfront, ← List.cons_append]
      exact List.mem_append_left _ hpiece

/-- The parent of a path has all parts but the last. -/
theorem parts_parent? {p q : Path} (h : p.parent? = some q) : q.parts = p.parts.dropLast := by
  obtain ⟨part, -, hparts⟩ := exists_parts_of_parent? h
  rw [hparts, List.dropLast_concat]

/-- There is nothing above the root, however it is spelled. -/
theorem parent?_eq_none {p : Path} (h : p.parts = [.root]) : p.parent? = none := by
  cases hparent : p.parent? with
  | none => rfl
  | some q =>
    obtain ⟨part, hroot, hparts⟩ := exists_parts_of_parent? hparent
    rw [h, ← List.nil_append [Part.root]] at hparts
    exact absurd (List.cons.inj (List.append_inj' hparts rfl).2).1.symm hroot

/-- There is nothing above the root. -/
theorem ancestors_eq_singleton {p : Path} (h : p.parts = [.root]) : p.ancestors = [p] := by
  rw [ancestors]
  cases p.pieces.length with
  | zero => rfl
  | succ fuel => rw [ancestorsWithin, parent?_eq_none h]

/-- What holds of a path and is kept by going up holds of everything above it. -/
theorem of_mem_ancestors {motive : Path → Prop}
    (hparent : ∀ q r, motive q → q.parent? = some r → motive r) {p q : Path} (hp : motive p)
    (h : q ∈ p.ancestors) : motive q := by
  have within (fuel : Nat) (p : Path) (hp : motive p) (h : q ∈ ancestorsWithin fuel p) :
      motive q := by
    induction fuel generalizing p with
    | zero =>
      obtain rfl := List.mem_singleton.mp h
      exact hp
    | succ fuel ih =>
      unfold ancestorsWithin at h
      split at h
      · obtain rfl := List.mem_singleton.mp h
        exact hp
      · rename_i r hr
        rcases List.mem_cons.mp h with rfl | h
        · exact hp
        · exact ih r (hparent p r hp hr) h
  exact within _ _ hp h

/-- The parts of a path above another are the first parts of that. -/
theorem parts_prefix_of_mem_ancestors {p q : Path} (h : q ∈ p.ancestors) : q.parts <+: p.parts := by
  refine of_mem_ancestors (motive := fun q => q.parts <+: p.parts) (fun q r hq hr => ?_)
    (List.prefix_refl _) h
  rw [parts_parent? hr]
  exact (List.dropLast_prefix _).trans hq

/-- A piece that is a name. -/
structure IsName (name : String) : Prop where
  slash : '/' ∉ name.toList
  real : isIdle name = false
  up : name ≠ ".."

/-- A name stands for itself. -/
theorem IsName.partOf? {name : String} (h : IsName name) :
    Path.partOf? name = some (.name name) := by
  simp [Path.partOf?, h.real, h.up]

/-- The last piece is no idle one. -/
def EndsInName (p : Path) : Prop := ∃ front last, p.pieces = front ++ [last] ∧ isIdle last = false

/-- A name is joined after a slash, unless there is one already or nothing before it. -/
theorem join_name {p : Path} {name : String} (h : IsName name) :
    p.join name = (if p.text = "" then ⟨name⟩
      else if p.text.toList.getLast? = some '/' then ⟨p.text ++ name⟩
      else ⟨p.text ++ "/" ++ name⟩) := by
  have hhead : ¬ name.toList.head? = some '/' := by
    intro hhead
    exact h.slash (List.mem_of_head? hhead)
  rw [join, if_neg (by simpa using hhead)]
  cases hlast : p.text.toList.getLast? with
  | none =>
    have hempty : p.text = "" := by simpa using hlast
    rw [if_pos hempty]
  | some c =>
    have hne : p.text ≠ "" := by
      intro hempty
      simp [hempty] at hlast
    rw [if_neg hne]
    by_cases hc : c = '/' <;> simp [hc]

/-- A relative text below a path that is not empty follows the pieces of the path, but for an empty
one at their end. -/
theorem pieces_join_of_relative {p : Path} (hne : p.text ≠ "") {rest : String}
    (hrest : (⟨rest⟩ : Path).isAbsolute = false) :
    ∃ first more idle, p.pieces = first :: more ++ idle ∧
      (∀ piece ∈ idle, isIdle piece = true) ∧
      (p.join rest).pieces = first :: more ++ pieces ⟨rest⟩ := by
  have hhead : ¬ (rest.toList.head? == some '/') = true := by simpa [isAbsolute] using hrest
  obtain ⟨front, c, hfront⟩ : ∃ front c, p.text.toList = front ++ [c] :=
    ⟨_, _, (List.dropLast_concat_getLast (by simpa using hne)).symm⟩
  have hjoin : p.join rest = if c == '/' then ⟨p.text ++ rest⟩ else ⟨p.text ++ "/" ++ rest⟩ := by
    rw [join, if_neg hhead, hfront, List.getLast?_concat]
  rw [hjoin]
  split
  · rename_i hc
    have htext : p.text = String.ofList front ++ "/" ++ "" := by
      rw [← String.toList_inj, hfront, beq_iff_eq.mp hc]
      simp
    obtain ⟨first, more, hpieces⟩ :=
      List.exists_cons_of_ne_nil (pieces_ne_nil ⟨String.ofList front⟩)
    refine ⟨first, more, [""], ?_, by simp [isIdle], ?_⟩
    · rw [show p = ⟨p.text⟩ from rfl, htext, pieces_append, hpieces]
      rfl
    · rw [htext, String.append_empty, pieces_append, hpieces]
  · obtain ⟨first, more, hpieces⟩ := List.exists_cons_of_ne_nil (pieces_ne_nil p)
    refine ⟨first, more, [], by simpa using hpieces, by simp, ?_⟩
    rw [pieces_append, hpieces]

/-- A piece without slashes does not start at the root. -/
theorem isAbsolute_of_not_mem {piece : String} (h : '/' ∉ piece.toList) :
    (⟨piece⟩ : Path).isAbsolute = false := by
  rw [isAbsolute, beq_eq_false_iff_ne]
  exact fun hhead => h (List.mem_of_head? hhead)

/-- A name does not start at the root. -/
theorem isAbsolute_of_isName {name : String} (h : IsName name) :
    (⟨name⟩ : Path).isAbsolute = false :=
  isAbsolute_of_not_mem h.slash

/-- A name below a path that is not empty follows the pieces of the path, but for an empty one at
their end. -/
theorem pieces_join {p : Path} (hne : p.text ≠ "") {name : String} (h : IsName name) :
    ∃ first rest idle, p.pieces = first :: rest ++ idle ∧
      (∀ piece ∈ idle, isIdle piece = true) ∧ (p.join name).pieces = first :: rest ++ [name] := by
  rw [← pieces_of_not_mem h.slash]
  exact pieces_join_of_relative hne (isAbsolute_of_isName h)

/-- A relative text below a path that is not empty adds the parts that its pieces stand for. -/
theorem parts_join_of_relative {p : Path} (hne : p.text ≠ "") {rest : String}
    (hrest : (⟨rest⟩ : Path).isAbsolute = false) :
    (p.join rest).parts = p.parts ++ (pieces ⟨rest⟩).filterMap partOf? := by
  obtain ⟨first, more, idle, hp, hidle, hjoin⟩ := pieces_join_of_relative hne hrest
  have htext : (p.join rest).text ≠ "" := by
    intro htext
    have hlength := congrArg List.length hjoin
    rw [show p.join rest = ⟨""⟩ from congrArg Path.mk htext] at hlength
    have hpos := List.length_pos_iff.mpr (pieces_ne_nil ⟨rest⟩)
    have hone : (pieces ⟨""⟩).length = 1 := by decide
    simp at hlength
    omega
  rw [List.cons_append] at hp hjoin
  rw [parts_eq htext hjoin, parts_eq hne hp, List.filterMap_append, List.filterMap_append,
    filterMap_partOf?_of_idle hidle, List.append_nil, List.append_assoc]

/-- A path that something was joined to is not empty. -/
theorem text_join_ne_empty {p : Path} {name : String} (h : IsName name) :
    (p.join name).text ≠ "" := by
  have hname : name ≠ "" := by
    rintro rfl
    exact absurd h.real (by decide)
  rw [join_name h]
  repeat' split
  all_goals simp [hname]

/-- A name below a path is one part more. -/
theorem parts_join {p : Path} {name : String} (h : IsName name) :
    (p.join name).parts = p.parts ++ [.name name] := by
  by_cases hne : p.text = ""
  · have hstart : start name = [.name name] := by
      have hreal := h.real
      simp only [isIdle, Bool.or_eq_false_iff] at hreal
      simp [start, hreal.1, hreal.2, h.partOf?]
    rw [parts_of_text_eq_empty hne, List.nil_append, ← hstart]
    have hpieces : (p.join name).pieces = [name] := by
      rw [join_name h, if_pos hne, pieces_of_not_mem h.slash]
    simpa using parts_eq (text_join_ne_empty h) hpieces
  · rw [parts_join_of_relative hne (isAbsolute_of_isName h), pieces_of_not_mem h.slash,
      List.filterMap_cons_some h.partOf?, List.filterMap_nil]

/-- A path that a name was joined to ends in it. -/
theorem endsInName_join {p : Path} {name : String} (h : IsName name) :
    EndsInName (p.join name) := by
  by_cases hne : p.text = ""
  · refine ⟨[], name, ?_, h.real⟩
    rw [join_name h, if_pos hne, pieces_of_not_mem h.slash]
    rfl
  · obtain ⟨first, rest, -, -, -, hjoin⟩ := pieces_join hne h
    exact ⟨first :: rest, name, hjoin, h.real⟩

/-- A path that ends in a name is in a directory. -/
theorem exists_parent?_of_endsInName {p : Path} (h : EndsInName p) :
    ∃ q, p.parent? = some q := by
  obtain ⟨front, last, hpieces, hreal⟩ := h
  have hne : last ≠ "" := by
    rintro rfl
    exact absurd hreal (by decide)
  have htext : ¬ (p.text == "") = true := by
    intro htext
    have hempty : p.pieces = [""] := by
      rw [show p = ⟨p.text⟩ from rfl, beq_iff_eq.mp htext]
      decide
    rw [hempty] at hpieces
    cases front with
    | nil => exact hne (by simpa using hpieces.symm)
    | cons first more => simp at hpieces
  rw [parent?, if_neg htext, hpieces]
  cases front with
  | nil => exact ⟨⟨""⟩, by simp [trimIdle, hne]⟩
  | cons first more =>
    obtain ⟨kept, idle, htrim, hrest, hidle, -⟩ := exists_trimIdle first (more ++ [last])
    have hnil : idle = [] := by
      by_contra hidle'
      obtain ⟨rest, piece, rfl⟩ : ∃ rest piece, idle = rest ++ [piece] :=
        ⟨_, _, (List.dropLast_concat_getLast hidle').symm⟩
      rw [← List.append_assoc] at hrest
      obtain rfl : last = piece := by simpa using (List.append_inj' hrest rfl).2
      have := hidle last (by simp)
      simp [hreal] at this
    rw [List.cons_append, htrim]
    rw [hnil, List.append_nil] at hrest
    cases kept with
    | nil => simp at hrest
    | cons second rest => exact ⟨_, rfl⟩

/-- The parent of a name below a path has the parts of the path. -/
theorem exists_parent?_join (p : Path) {name : String} (h : IsName name) :
    ∃ q, (p.join name).parent? = some q ∧ q.parts = p.parts := by
  obtain ⟨q, hq⟩ := exists_parent?_of_endsInName (endsInName_join (p := p) h)
  exact ⟨q, hq, by rw [parts_parent? hq, parts_join h, List.dropLast_concat]⟩

/-- A name after a slash is the last piece. -/
theorem endsInName_append {dir name : String} (h : IsName name) :
    EndsInName ⟨dir ++ "/" ++ name⟩ :=
  ⟨pieces ⟨dir⟩, name, by rw [pieces_append, pieces_of_not_mem h.slash], h.real⟩

/-- The file of a path is named by what stands after the last slash. -/
theorem fileName?_append {dir name : String} (h : IsName name) :
    fileName? ⟨dir ++ "/" ++ name⟩ = some name := by
  have hpieces : pieces ⟨dir ++ "/" ++ name⟩ = pieces ⟨dir⟩ ++ [name] := by
    rw [pieces_append, pieces_of_not_mem h.slash]
  have hne : (⟨dir ++ "/" ++ name⟩ : Path).text ≠ "" := by simp
  obtain ⟨first, rest, hdir⟩ := List.exists_cons_of_ne_nil (pieces_ne_nil ⟨dir⟩)
  rw [hdir, List.cons_append] at hpieces
  rw [fileName?, parts_eq hne hpieces, List.filterMap_append, List.filterMap_cons_some h.partOf?,
    List.filterMap_nil, ← List.append_assoc, List.getLast?_concat]

/-- A character that is not in a text is not in it from the back either. -/
theorem ne_of_mem_reverse {mark : Char} {cs : List Char} (h : mark ∉ cs) :
    ∀ c ∈ cs.reverse, (c != mark) = true := by
  intro c hc
  rw [bne_iff_ne]
  rintro rfl
  exact h (List.mem_reverse.mp hc)

/-- What stands after the last dot of a name is its extension, unless the name starts with it. -/
theorem extensionOfName?_append {stem letters : List Char} (hstem : stem ≠ [])
    (hdot : '.' ∉ letters) : extensionOfName? (String.ofList (stem ++ '.' :: letters)) =
      some (String.ofList letters) := by
  have hreverse : (String.ofList (stem ++ '.' :: letters)).toList.reverse =
      letters.reverse ++ '.' :: stem.reverse := by simp
  have hletters := ne_of_mem_reverse hdot
  obtain ⟨c, rest, hrest⟩ := List.exists_cons_of_ne_nil (List.reverse_ne_nil_iff.mpr hstem)
  rw [extensionOfName?, hreverse, List.dropWhile_append_of_pos hletters,
    List.takeWhile_append_of_pos hletters, hrest]
  simp

/-- A name after a slash is one more part. -/
theorem parts_append {dir name : String} (h : IsName name) (hdir : dir ≠ "") :
    parts ⟨dir ++ "/" ++ name⟩ = parts ⟨dir⟩ ++ [.name name] := by
  have hpieces : pieces ⟨dir ++ "/" ++ name⟩ = pieces ⟨dir⟩ ++ [name] := by
    rw [pieces_append, pieces_of_not_mem h.slash]
  have hne : (⟨dir ++ "/" ++ name⟩ : Path).text ≠ "" := by simp
  obtain ⟨first, rest, hfirst⟩ := List.exists_cons_of_ne_nil (pieces_ne_nil ⟨dir⟩)
  rw [hfirst, List.cons_append] at hpieces
  rw [parts_eq hne hpieces, parts_eq hdir hfirst, List.filterMap_append,
    List.filterMap_cons_some h.partOf?, List.filterMap_nil, List.append_assoc]

/-- Nothing is trimmed before a piece that is not idle. -/
theorem trimIdle_concat {ps : List String} {last : String} (h : isIdle last = false) :
    trimIdle (ps ++ [last]) = ps ++ [last] := by
  cases ps with
  | nil => rfl
  | cons first rest =>
    simp [trimIdle, h]

/-- Putting the pieces of a path together again. -/
theorem ofPieces_pieces {p : Path} (h : p.text ≠ "") : ofPieces p.pieces = p := by
  unfold ofPieces
  split
  · rename_i hempty
    exact absurd (text_eq_empty_of_pieces hempty) h
  · exact congrArg Path.mk (text_eq_intercalate p).symm

/-- The parent of a name after a slash is what stands before that, if it ends in a name too. -/
theorem parent?_append {dir name : String} (h : IsName name) (hdir : EndsInName ⟨dir⟩) :
    parent? ⟨dir ++ "/" ++ name⟩ = some ⟨dir⟩ := by
  obtain ⟨front, last, hpieces, hreal⟩ := hdir
  have hne : ¬ ((⟨dir ++ "/" ++ name⟩ : Path).text == "") = true := by simp
  have hdir : dir ≠ "" := by
    rintro rfl
    have hempty : [] ++ [""] = front ++ [last] := hpieces
    obtain rfl : "" = last := (List.cons.inj (List.append_inj' hempty rfl).2).1
    exact absurd hreal (by decide)
  obtain ⟨first, second, rest, hcons⟩ : ∃ first second rest,
      front ++ [last] ++ [name] = first :: second :: rest := by
    cases front with
    | nil => exact ⟨_, _, _, rfl⟩
    | cons first more => cases more <;> exact ⟨_, _, _, rfl⟩
  rw [parent?, if_neg hne, pieces_append, pieces_of_not_mem h.slash, trimIdle_concat h.real,
    hpieces, hcons]
  dsimp only
  rw [← hcons, List.dropLast_concat, trimIdle_concat hreal, ← hpieces, ofPieces_pieces hdir]

/-- A number of slashes. -/
def slashes (n : Nat) : String := String.ofList (List.replicate n '/')

theorem slashes_succ (n : Nat) : slashes (n + 1) = "/" ++ slashes n := by
  rw [slashes, List.replicate_succ, String.ofList_cons]
  rfl

/-- Each slash is one byte. -/
theorem utf8ByteSize_slashes (n : Nat) : (slashes n).utf8ByteSize = n := by
  induction n with
  | zero => rfl
  | succ n ih =>
    rw [slashes_succ, String.utf8ByteSize_append, ih, Nat.add_comm]
    rfl

/-- Between, before and after slashes stands nothing. -/
theorem pieces_slashes (n : Nat) : pieces ⟨slashes n⟩ = List.replicate (n + 1) "" := by
  induction n with
  | zero => decide
  | succ n ih =>
    have h := pieces_append "" (slashes n)
    rw [String.empty_append, ← slashes_succ, ih] at h
    rw [h]
    rfl

/-- Slashes are no part of a path that they follow. -/
theorem parts_append_slashes {dir : String} (hdir : dir ≠ "") (n : Nat) :
    parts ⟨dir ++ slashes n⟩ = parts ⟨dir⟩ := by
  cases n with
  | zero => rw [show slashes 0 = "" from rfl, String.append_empty]
  | succ n =>
    have hpieces : pieces ⟨dir ++ slashes (n + 1)⟩ = pieces ⟨dir⟩ ++ List.replicate (n + 1) "" := by
      rw [slashes_succ, ← String.append_assoc, pieces_append, pieces_slashes]
    have hne : (⟨dir ++ slashes (n + 1)⟩ : Path).text ≠ "" := by simp [hdir]
    obtain ⟨first, rest, hfirst⟩ := List.exists_cons_of_ne_nil (pieces_ne_nil ⟨dir⟩)
    rw [hfirst, List.cons_append] at hpieces
    have hidle : ∀ piece ∈ List.replicate (n + 1) "", isIdle piece = true := by
      intro piece hpiece
      rw [List.eq_of_mem_replicate hpiece]
      rfl
    rw [parts_eq hne hpieces, parts_eq hdir hfirst, List.filterMap_append,
      filterMap_partOf?_of_idle hidle, List.append_nil]

end ScriptModules.Path

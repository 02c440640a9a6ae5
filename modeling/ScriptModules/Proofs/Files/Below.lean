import ScriptModules.Proofs.Files.Normalized

/-!
# The text of a way

A path is put together from parts one after the other. Where the parts are those of a path, each
step goes after a slash, so that what goes on from a way starts with the text of the way.
-/

namespace ScriptModules.Path

variable {p : Path} {part : Part} {steps : List Part}

/-- A path with one more part. -/
def add (p : Path) : Part → Path
  | .root => ⟨"/"⟩
  | .here => p.join "."
  | .up => p.join ".."
  | .name s => p.join s

/-- Parts are put together by adding one after the other. -/
theorem ofParts_eq (parts : List Part) : ofParts parts = parts.foldl add ⟨""⟩ := by
  unfold ofParts
  congr! 2

/-- A text that ends in a name, so that a step goes after a slash. -/
def Open (p : Path) : Prop := ∃ c, p.text.toList.getLast? = some c ∧ c ≠ '/'

/-- What is joined goes after a slash if it has to. -/
theorem exists_text_join {s : String} (hslash : '/' ∉ s.toList) (p : Path) :
    ∃ front, (p.join s).text = front ++ s ∧ (Open p → front = p.text ++ "/") := by
  have hhead : ¬ (s.toList.head? == some '/') = true := by
    intro hhead
    exact hslash (List.mem_of_head? (beq_iff_eq.mp hhead))
  rw [join, if_neg hhead]
  cases hlast : p.text.toList.getLast? with
  | none =>
    refine ⟨"", by simp, ?_⟩
    rintro ⟨c, hc, -⟩
    rw [hlast] at hc
    cases hc
  | some c =>
    dsimp only
    split
    · rename_i hc
      refine ⟨p.text, rfl, ?_⟩
      rintro ⟨d, hd, hne⟩
      rw [hlast] at hd
      exact absurd ((Option.some.inj hd).symm.trans (beq_iff_eq.mp hc)) hne
    · exact ⟨p.text ++ "/", rfl, fun _ => rfl⟩

/-- A path that ends in a name is open. -/
theorem open_join {s : String} (hslash : '/' ∉ s.toList) (hne : s ≠ "") (p : Path) :
    Open (p.join s) := by
  obtain ⟨front, htext, -⟩ := exists_text_join hslash p
  have hcs : s.toList ≠ [] := by simpa using hne
  refine ⟨s.toList.getLast hcs, ?_, fun hlast => hslash (hlast ▸ List.getLast_mem hcs)⟩
  rw [htext, String.toList_append, List.getLast?_append, List.getLast?_eq_some_getLast hcs]
  rfl

/-- A step is joined as a piece of text. -/
theorem IsStep.exists_piece (h : IsStep part) :
    ∃ s : String, '/' ∉ s.toList ∧ s ≠ "" ∧ ∀ p : Path, p.add part = p.join s := by
  cases h with
  | up => exact ⟨"..", by decide, by decide, fun _ => rfl⟩
  | @name s hname =>
    refine ⟨s, hname.slash, ?_, fun _ => rfl⟩
    rintro rfl
    exact absurd hname.real (by decide)

/-- A path is open after a step. -/
theorem IsStep.open_add (h : IsStep part) (p : Path) : Open (p.add part) := by
  obtain ⟨s, hslash, hne, hadd⟩ := h.exists_piece
  rw [hadd]
  exact open_join hslash hne p

/-- A step goes after a slash where a path is open. -/
theorem IsStep.exists_text_add (h : IsStep part) (hp : Open p) :
    ∃ s, (p.add part).text = p.text ++ "/" ++ s := by
  obtain ⟨s, hslash, -, hadd⟩ := h.exists_piece
  obtain ⟨front, htext, hfront⟩ := exists_text_join hslash p
  exact ⟨s, by rw [hadd, htext, hfront hp]⟩

/-- Steps leave a way open. -/
theorem open_foldl_add (hp : Open p) (h : ∀ part ∈ steps, IsStep part) :
    Open (steps.foldl add p) := by
  induction steps generalizing p with
  | nil => exact hp
  | cons part rest ih =>
    exact ih ((h part List.mem_cons_self).open_add p) fun part hpart =>
      h part (List.mem_cons_of_mem _ hpart)

/-- Steps go after a slash. -/
theorem exists_text_foldl_add (hp : Open p) (h : ∀ part ∈ steps, IsStep part) (hne : steps ≠ []) :
    ∃ more, (steps.foldl add p).text = p.text ++ "/" ++ more := by
  induction steps generalizing p with
  | nil => exact absurd rfl hne
  | cons part rest ih =>
    have hpart := h part List.mem_cons_self
    obtain ⟨s, hs⟩ := hpart.exists_text_add hp
    rw [List.foldl_cons]
    cases rest with
    | nil => exact ⟨s, hs⟩
    | cons next rest =>
      obtain ⟨more, hmore⟩ := ih (hpart.open_add p)
        (fun part hpart => h part (List.mem_cons_of_mem _ hpart)) (List.cons_ne_nil _ _)
      refine ⟨s ++ "/" ++ more, ?_⟩
      rw [hmore, hs]
      simp only [String.append_assoc]

/-- After the first part of a path, there are only steps. -/
theorem exists_parts_eq (p : Path) : p.parts = [] ∨ ∃ first rest, p.parts = first :: rest ∧
    (first = .root ∨ Open (ofParts [first])) ∧ ∀ part ∈ rest, IsStep part := by
  rcases exists_first_steps p with hnil | ⟨first, rest, hparts, hfirst, hrest⟩
  · exact Or.inl hnil
  · refine Or.inr ⟨first, rest, hparts, ?_, hrest⟩
    rcases hfirst with hroot | rfl | hstep
    · exact Or.inl hroot
    · exact Or.inr ⟨'.', by decide, by decide⟩
    · exact Or.inr (hstep.open_add _)

/-- What goes on from a way starts with the text of the way and a slash, unless the way leads
nowhere or only to the root. -/
theorem exists_text_ofParts_append {before way rest : List Part}
    (h : p.parts = before ++ (way ++ rest)) (hrest : rest ≠ []) :
    way = [] ∨ way = [.root] ∨ Open (ofParts way) ∧
      ∃ more, (ofParts (way ++ rest)).text = (ofParts way).text ++ "/" ++ more := by
  have hfinish (hopen : Open (ofParts way)) (hsteps : ∀ part ∈ rest, IsStep part) :
      Open (ofParts way) ∧
        ∃ more, (ofParts (way ++ rest)).text = (ofParts way).text ++ "/" ++ more := by
    refine ⟨hopen, ?_⟩
    rw [ofParts_eq (way ++ rest), List.foldl_append, ← ofParts_eq]
    exact exists_text_foldl_add hopen hsteps hrest
  have hopen {first : Part} {more : List Part} (hfirst : first = .root ∨ Open (ofParts [first]))
      (hmore : ∀ part ∈ more, IsStep part) (hne : ¬ (first = .root ∧ more = [])) :
      Open (ofParts (first :: more)) := by
    rw [ofParts_eq, List.foldl_cons]
    cases more with
    | nil =>
      have hstart := hfirst.resolve_left fun hroot => hne ⟨hroot, rfl⟩
      rwa [ofParts_eq] at hstart
    | cons second more =>
      rw [List.foldl_cons]
      exact open_foldl_add ((hmore second List.mem_cons_self).open_add _) fun part hpart =>
        hmore part (List.mem_cons_of_mem _ hpart)
  cases way with
  | nil => exact Or.inl rfl
  | cons first more =>
    refine Or.inr ?_
    rcases exists_parts_eq p with hnil | ⟨head, steps, hparts, hhead, hsteps⟩
    · rw [hnil] at h
      simp at h
    · rw [hparts] at h
      cases before with
      | nil =>
        obtain ⟨rfl, rfl⟩ := List.cons.inj h
        by_cases hroot : head = .root ∧ more = []
        · obtain ⟨rfl, rfl⟩ := hroot
          exact Or.inl rfl
        · refine Or.inr (hfinish (hopen hhead ?_ hroot) ?_)
          · exact fun part hpart => hsteps part (List.mem_append_left _ hpart)
          · exact fun part hpart => hsteps part (List.mem_append_right _ hpart)
      | cons head' before =>
        obtain ⟨rfl, rfl⟩ := List.cons.inj h
        have hfirst : IsStep first := hsteps first (by simp)
        refine Or.inr (hfinish (hopen (Or.inr (hfirst.open_add _)) ?_ ?_) ?_)
        · exact fun part hpart => hsteps part (by simp [hpart])
        · rintro ⟨rfl, -⟩
          cases hfirst
        · exact fun part hpart => hsteps part (by simp [hpart])

/-- What is left of a path below another way on from a directory. -/
theorem exists_below?_of_prefix {dir base way file : Path} (hway : base.below? dir = some way)
    (hfront : base.parts <+: file.parts) (hne : base.parts ≠ file.parts) :
    ∃ relative, file.below? dir = some relative ∧ (way.text = "" ∨ way.text = "/" ∨
      Open way ∧ ∃ more, relative.text = way.text ++ "/" ++ more) := by
  unfold below? at hway ⊢
  split at hway
  · rename_i hstarts
    rw [startsWith_iff] at hstarts
    obtain ⟨between, hbetween⟩ := hstarts
    obtain ⟨rest, hrest⟩ := hfront
    have hfile : file.parts = dir.parts ++ (between ++ rest) := by
      rw [← hrest, ← hbetween, List.append_assoc]
    have hnil : rest ≠ [] := by
      rintro rfl
      exact hne (by rw [← hrest, List.append_nil])
    obtain rfl := Option.some.inj hway
    rw [if_pos (startsWith_iff.mpr (hfile ▸ List.prefix_append _ _)), ← hbetween, hfile,
      List.drop_left, List.drop_left]
    refine ⟨_, rfl, ?_⟩
    rcases exists_text_ofParts_append hfile hnil with rfl | rfl | hopen
    · exact Or.inl rfl
    · exact Or.inr (Or.inl rfl)
    · exact Or.inr (Or.inr hopen)
  · cases hway

end ScriptModules.Path

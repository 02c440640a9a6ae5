import ScriptModules.Proofs.Resolve.Simulation
import ScriptModules.Proofs.Specifier.Forms

/-!
# How deep a search goes

Every candidate of a specifier has a lower rank than the specifier, and no rank is above the
limit. A search within its rank does not come to the limit, so more depth changes nothing.
-/

namespace ScriptModules.Resolve.Search

open Specifier (isDirectory hasPathFront sourceAlternates withoutNodePrefix)

variable {σ : Type} {s : Session} {c : Context} {specifier : String} {fallback : Fallback}

/-- Names may be mapped to files, paths may not. -/
def reach (specifier : String) : Nat := if hasPathFront specifier then 0 else 3

/-- A specifier that is probed has candidates that may have sources, which have neither. -/
def level (specifier : String) (fallback : Fallback) : Nat :=
  if isDirectory specifier || fallback == .allowed then 3
  else if (sourceAlternates specifier).isEmpty then 1 else 2

/-- How many attempts can lie inside one another from here. -/
def rank (s : Session) (specifier : String) (fallback : Fallback) : Nat :=
  reach (withoutNodePrefix s.capabilities specifier) +
    level (withoutNodePrefix s.capabilities specifier) fallback

/-- There are at most three attempts on the way from a name to a file. -/
theorem reach_le (specifier : String) : reach specifier ≤ 3 := by
  unfold reach
  split <;> omega

/-- There are at most three attempts on the way from a form to its sources. -/
theorem level_le (specifier : String) (fallback : Fallback) : level specifier fallback ≤ 3 := by
  unfold level
  repeat' split
  all_goals omega

/-- A specifier that is probed has the candidates and their sources below it. -/
theorem level_eq_of_probed (h : isDirectory specifier = true ∨ fallback = .allowed) :
    level specifier fallback = 3 := by
  rcases h with h | rfl <;> simp [level, *]

/-- Every attempt counts itself. -/
theorem level_pos (specifier : String) (fallback : Fallback) : 0 < level specifier fallback := by
  unfold level
  repeat' split
  all_goals omega

/-- Every attempt has a rank. -/
theorem rank_pos (s : Session) (specifier : String) (fallback : Fallback) :
    0 < rank s specifier fallback :=
  Nat.add_pos_right _ (level_pos _ _)

/-- No rank is above the limit. -/
theorem rank_le_depthLimit (s : Session) (specifier : String) (fallback : Fallback) :
    rank s specifier fallback ≤ depthLimit :=
  Nat.add_le_add (reach_le _) (level_le _ _)

/-- What cannot be mapped has at most half the rank. -/
theorem rank_le_of_hasPathFront (h : hasPathFront specifier = true) :
    rank s specifier fallback ≤ 3 := by
  rw [rank, Specifier.withoutNodePrefix_of_hasPathFront h, reach, if_pos h, Nat.zero_add]
  exact level_le _ _

/-- A nested candidate that is no directory is not probed. -/
theorem level_nested_le (h : isDirectory specifier = false) : level specifier .nested ≤ 2 := by
  unfold level
  simp only [h, Bool.false_or]
  split
  · rename_i hf
    exact absurd hf (by decide)
  · split <;> omega

/-- A candidate cannot be mapped unless what it is made from can. -/
theorem reach_withoutNodePrefix_le {form : String}
    (h : hasPathFront specifier = true → hasPathFront form = true) :
    reach (withoutNodePrefix s.capabilities form) ≤ reach specifier := by
  by_cases hp : hasPathFront specifier = true
  · have hf := h hp
    rw [Specifier.withoutNodePrefix_of_hasPathFront hf]
    simp [reach, hf]
  · have : reach specifier = 3 := by simp [reach, hp]
    rw [this]
    exact reach_le _

/-- An extension does not ask for a directory. -/
theorem isDirectory_append_extension {extension : String} (h : extension ∈ extensions) :
    isDirectory (specifier ++ extension) = false := by
  simp only [extensions, List.mem_cons, List.not_mem_nil, or_false] at h
  rcases h with rfl | rfl | rfl | rfl | rfl <;>
    rw [isDirectory, Text.endsWith_append (by decide)] <;> decide +kernel

/-- The sources that are tried first are forms of the specifier. -/
theorem mem_sourceAlternates_of_mem {form : String} (h : form ∈ prioritySources specifier c) :
    form ∈ sourceAlternates specifier := by
  unfold prioritySources at h
  split at h
  · exact h
  · exact absurd h (by simp)

/-- A form of a specifier asks for no directory. -/
theorem Derived.isDirectory_eq {form : String} (h : Derived c specifier fallback form) :
    isDirectory form = false := by
  cases h with
  | source hd hm =>
    obtain ⟨_, _, _, _, hform⟩ := Specifier.exists_sourceForm (mem_sourceAlternates_of_mem hm)
    rw [hform.isDirectory_eq, hd]
  | index hd he => exact isDirectory_append_extension he
  | indexBelow hd hf he => exact isDirectory_append_extension he
  | extended hd hf he => exact isDirectory_append_extension he

/-- The forms of a path are paths. -/
theorem Derived.hasPathFront {form : String} (h : Derived c specifier fallback form)
    (hp : Specifier.hasPathFront specifier = true) : Specifier.hasPathFront form = true := by
  cases h with
  | source hd hm =>
    obtain ⟨_, _, _, _, hform⟩ := Specifier.exists_sourceForm (mem_sourceAlternates_of_mem hm)
    exact hform.hasPathFront hp
  | index hd he =>
    exact Specifier.hasPathFront_append (Specifier.hasPathFront_append hp _) _
  | indexBelow hd hf he =>
    exact Specifier.hasPathFront_append (Specifier.hasPathFront_append hp _) _
  | extended hd hf he => exact Specifier.hasPathFront_append hp _

/-- A form has a lower level than the specifier that it is derived from. -/
theorem Derived.level_lt {form : String} (h : Derived c specifier fallback form) :
    level (withoutNodePrefix s.capabilities form) .nested < level specifier fallback := by
  have hd : isDirectory (withoutNodePrefix s.capabilities form) = false :=
    Bool.eq_false_iff.mpr fun hdir => Bool.eq_false_iff.mp h.isDirectory_eq
      (Specifier.isDirectory_of_withoutNodePrefix hdir)
  have hle := level_nested_le hd
  cases h with
  | source hd' hm =>
    have hm' := mem_sourceAlternates_of_mem hm
    have hlow : level (withoutNodePrefix s.capabilities form) .nested = 1 := by
      simp [level, hd, Specifier.sourceAlternates_of_mem hm']
    have hne : (sourceAlternates specifier).isEmpty = false :=
      List.isEmpty_eq_false_iff.mpr (List.ne_nil_of_mem hm')
    rw [hlow]
    unfold level
    split
    · omega
    · simp [hne]
  | index hd' he => rw [level_eq_of_probed (Or.inl hd')]; omega
  | indexBelow hd' hf he => rw [level_eq_of_probed (Or.inr hf)]; omega
  | extended hd' hf he => rw [level_eq_of_probed (Or.inr hf)]; omega

/-- A form has a lower rank than the specifier that it is derived from. -/
theorem Derived.rank_lt {form : String}
    (h : Derived c (withoutNodePrefix s.capabilities specifier) fallback form) :
    rank s form .nested < rank s specifier fallback :=
  Nat.add_lt_add_of_le_of_lt (reach_withoutNodePrefix_le h.hasPathFront) h.level_lt

/-- Only what is no path is mapped, and only to files. -/
theorem hasPathFront_of_mem_mappedUrls {u : String} (h : u ∈ mappedUrls s specifier c) :
    hasPathFront specifier = false ∧ hasPathFront u = true := by
  unfold mappedUrls at h
  split at h
  · exact absurd h (by simp)
  · rename_i hbare
    refine ⟨?_, ?_⟩
    · simp only [Specifier.isBare, Bool.or_eq_true, not_or] at hbare
      rw [Bool.eq_false_iff]
      intro hp
      simp [Specifier.isPath_of_hasPathFront hp] at hbare
    · split at h
      · obtain ⟨p, -, hu⟩ := List.mem_filterMap.mp h
        obtain ⟨url, hurl, rfl⟩ := Option.map_eq_some_iff.mp hu
        exact Specifier.hasPathFront_of_ofPath? hurl
      · exact absurd h (by simp)

/-- A path is mapped to nothing. -/
theorem mappedUrls_eq_nil (hp : Specifier.hasPathFront specifier = true) :
    mappedUrls s specifier c = [] := by
  rw [List.eq_nil_iff_forall_not_mem]
  intro u hu
  have hs := (hasPathFront_of_mem_mappedUrls hu).1
  simp [hp] at hs

/-- A path that asks for no directory is searched for as what no mapping applies to. -/
theorem attempt_path (hp : Specifier.hasPathFront specifier = true)
    (hd : isDirectory specifier = false) (next : Resolver σ) (again : Again σ)
    (fallback : Fallback) : attempt s next again specifier c fallback =
      searchUnmapped s next again specifier c fallback := by
  rw [attempt_eq, Specifier.withoutNodePrefix_of_hasPathFront hp]
  simp only [hd, Bool.false_eq_true, ite_false, mappedUrls_eq_nil hp, firstOr]

/-- A file has a lower rank than a name that is mapped to it. -/
theorem rank_lt_of_mem_mappedUrls {u : String}
    (h : u ∈ mappedUrls s (withoutNodePrefix s.capabilities specifier) c) :
    rank s u .allowed < rank s specifier fallback := by
  obtain ⟨hs, hu⟩ := hasPathFront_of_mem_mappedUrls h
  have hle : rank s u .allowed ≤ 3 := rank_le_of_hasPathFront hu
  have hpos : 0 < level (withoutNodePrefix s.capabilities specifier) fallback := level_pos _ _
  have hrank : rank s specifier fallback =
      3 + level (withoutNodePrefix s.capabilities specifier) fallback := by
    rw [rank, reach, if_neg (by simp [hs])]
  omega

/-- A search within its rank is the same at every depth. -/
theorem resolveWithin_eq_of_rank_le (next : Resolver σ) {depth depth' : Nat}
    (h : rank s specifier fallback ≤ depth) (h' : rank s specifier fallback ≤ depth') :
    resolveWithin s next c depth specifier fallback =
      resolveWithin s next c depth' specifier fallback := by
  induction depth generalizing depth' specifier fallback with
  | zero => exact absurd h (by have := rank_pos s specifier fallback; omega)
  | succ depth ih =>
    cases depth' with
    | zero => exact absurd h' (by have := rank_pos s specifier fallback; omega)
    | succ depth' =>
      refine (Simulation.eq s s.projects s.projects next c).attempt rfl rfl ?_ ?_
      · intro u hu
        have hlt : rank s u .allowed < rank s specifier fallback := rank_lt_of_mem_mappedUrls hu
        exact ih (by omega) (by omega)
      · intro form hform
        have hlt : rank s form .nested < rank s specifier fallback := hform.rank_lt
        exact ih (by omega) (by omega)

/-- A deeper search than the limit allows finds nothing else. -/
theorem resolveWithin_eq_of_depthLimit_le (next : Resolver σ) {depth : Nat}
    (h : depthLimit ≤ depth) :
    resolveWithin s next c depth specifier fallback =
      resolveWithin s next c depthLimit specifier fallback :=
  resolveWithin_eq_of_rank_le next ((rank_le_depthLimit s specifier fallback).trans h)
    (rank_le_depthLimit s specifier fallback)

end ScriptModules.Resolve.Search

import ScriptModules.Proofs.Specifier.Forms
import ScriptModules.Proofs.Url.Foreign

/-!
# Specifiers with a scheme

What is read as a URL starts with a letter, and the colon of its scheme stands before the first
slash. So it is no name of a built-in module, and a path only if it is the URL of a file.
-/

namespace ScriptModules

variable {u : Url} {x : String}

namespace Url

/-- A scheme ends before the first slash. -/
theorem colon_mem_of_splitScheme? {cs r : List Char} {scheme : String}
    (h : splitScheme? cs = some (scheme, r)) : ':' ∈ cs.takeWhile (· != '/') := by
  obtain ⟨name, rfl, -, hname, -⟩ := splitScheme?_eq_some_iff.mp h
  have hslash : ∀ c ∈ name, (c != '/') = true := by
    intro c hc
    rw [bne_iff_ne]
    rintro rfl
    exact absurd (hname '/' hc) (by decide)
  rw [List.takeWhile_append_of_pos hslash]
  simp

end Url

namespace Specifier

/-- The name of a built-in module is no URL. -/
theorem isBuiltin_of_parse (h : Url.parse x = .ok u) : isBuiltin x = false := by
  by_contra hbuiltin
  rw [Bool.not_eq_false, isBuiltin, List.contains_iff_mem] at hbuiltin
  have hplain : ∀ name ∈ builtins, name.toList ≠ [] ∧ ':' ∉ name.toList ∧
      name.toList.all (fun c => 0x20 < c.val.toNat) = true := by
    decide
  obtain ⟨hne, hcolon, hall⟩ := hplain _ hbuiltin
  have hvisible := Url.visible_of_all hall
  rw [String.toList_ofList] at hne hcolon hvisible
  generalize hname : x.toList.takeWhile (· != '/') = name at hne hcolon hvisible
  have hrest : ∀ c ∈ (x.toList.dropWhile (· != '/')).head?, c = '/' := by
    intro c hc
    have hhead := List.head?_dropWhile_not (· != '/') x.toList
    rw [Option.mem_def.mp hc] at hhead
    simpa using hhead
  have hclean : Url.clean x = name ++ Url.cleanBack (x.toList.dropWhile (· != '/')) := by
    have hadded := Url.clean_append hne hvisible [] (x.toList.dropWhile (· != '/'))
    rw [List.nil_append, ← hname, List.takeWhile_append_dropWhile, String.ofList_toList] at hadded
    rw [hadded, hname]
    rfl
  have hstop : ∀ c ∈ (Url.cleanBack (x.toList.dropWhile (· != '/'))).head?, (c != '/') = false := by
    rw [Url.head?_cleanBack]
    · intro c hc
      simp [hrest c hc]
    · intro c hc
      rw [hrest c hc]
      decide
  obtain ⟨r, hr⟩ := Url.splitScheme?_of_parse h
  have hmem := Url.colon_mem_of_splitScheme? hr
  rw [hclean, Text.takeWhile_append_of_head hstop, List.takeWhile_eq_self_iff.mpr] at hmem
  · exact hcolon hmem
  · rw [← hname]
    exact fun c => List.mem_takeWhile_imp

/-- No mark stands before a scheme. -/
theorem head?_ne_of_parse (h : Url.parse x = .ok u) {c : Char} (hc : 0x20 < c.val.toNat)
    (halpha : c.isAlpha = false) : x.toList.head? ≠ some c := by
  intro hhead
  rw [Url.isAlpha_of_parse h hhead hc] at halpha
  cases halpha

/-- What is read as a URL of a longer scheme has a scheme. -/
theorem hasScheme_of_parse (h : Url.parse x = .ok u) (hlong : 1 < u.scheme.length) :
    hasScheme x = true := by
  have hhash : x.toList.head? ≠ some '#' := head?_ne_of_parse h (by decide) (by decide)
  have hscope : x.toList.head? ≠ some '@' := head?_ne_of_parse h (by decide) (by decide)
  simp [hasScheme, h, hhash, hscope, hlong]

/-- No URL is a path but that of a file. -/
theorem isPath_of_parse (h : Url.parse x = .ok u) (hfile : u.scheme ≠ "file") :
    isPath x = false := by
  have hdot : x.toList.head? ≠ some '.' := head?_ne_of_parse h (by decide) (by decide)
  have hslash : x.toList.head? ≠ some '/' := head?_ne_of_parse h (by decide) (by decide)
  by_contra hpath
  rw [Bool.not_eq_false, isPath_eq, Bool.or_eq_true, Bool.or_eq_true, beq_iff_eq, beq_iff_eq,
    hasPathFront_iff] at hpath
  rcases hpath with (⟨front, hfront, hstarts⟩ | rfl) | rfl
  · obtain ⟨rest, rfl⟩ := Text.exists_append_of_prefix hstarts
    simp only [pathFronts, List.mem_cons, List.not_mem_nil, or_false] at hfront
    rcases hfront with rfl | rfl | rfl | rfl
    · exact hfile (Url.scheme_of_parse_append (Url.visible_of_all (by decide)) rfl h)
    · exact hdot (by simp)
    · exact hdot (by simp)
    · exact hslash (by simp)
  · exact hdot rfl
  · exact hdot rfl

/-- What is read as a URL of another scheme has no prefix of built-in modules. -/
theorem dropPrefix?_of_parse (h : Url.parse x = .ok u) (hnode : u.scheme ≠ "node") :
    Text.dropPrefix? nodePrefix x = none := by
  unfold Text.dropPrefix?
  split
  · rename_i hn
    obtain ⟨rest, rfl⟩ := Text.exists_append_of_prefix (List.isPrefixOf_iff_prefix.mp hn)
    exact absurd (Url.scheme_of_parse_node h) hnode
  · rfl

end Specifier

end ScriptModules

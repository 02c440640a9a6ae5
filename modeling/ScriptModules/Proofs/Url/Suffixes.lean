import ScriptModules.Proofs.Specifier.Forms
import ScriptModules.Proofs.Url.Endings

/-!
# Suffixes of URLs

A query or a fragment that follows a text leaves everything that is read before it as it is. The
one text that is read differently then ends in the mark of a user without a host; nothing stands
at its URL.
-/

namespace ScriptModules.Url

open Specifier (inPath)

/-- A URL with another query and fragment. -/
def withSuffix (u : Url) (suffix : List Char) : Url :=
  { u with
    query := (queryAndFragment (SchemeKind.of u.scheme) suffix).1
    fragment := (queryAndFragment (SchemeKind.of u.scheme) suffix).2 }

section
variable (u : Url) (suffix : List Char)

@[simp] theorem scheme_withSuffix : (u.withSuffix suffix).scheme = u.scheme := rfl

@[simp] theorem path_withSuffix : (u.withSuffix suffix).path = u.path := rfl

@[simp] theorem segmentsOf_withSuffix : (u.withSuffix suffix).segmentsOf = u.segmentsOf := rfl

@[simp] theorem toPath?_withSuffix : (u.withSuffix suffix).toPath? = u.toPath? := rfl

end

/-- Reading a text and reading it with a suffix give the same URL but for the suffix, or both give
none. -/
def Carried (suffix : List Char) (plain suffixed : Except Fault Url) : Prop :=
  suffixed.toOption = plain.toOption.map (·.withSuffix suffix)

/-- What is carried fails both ways, or gives the URL with the suffix. -/
theorem Carried.cases {suffix : List Char} {plain suffixed : Except Fault Url}
    (h : Carried suffix plain suffixed) :
    (∃ f f', plain = .error f ∧ suffixed = .error f') ∨
      ∃ u, plain = .ok u ∧ suffixed = .ok (u.withSuffix suffix) := by
  unfold Carried at h
  cases plain with
  | error f =>
    cases suffixed with
    | error f' => exact Or.inl ⟨f, f', rfl, rfl⟩
    | ok u' => cases h
  | ok u =>
    cases suffixed with
    | error f' => cases h
    | ok u' => exact Or.inr ⟨u, rfl, congrArg _ (Option.some.inj h)⟩

/-- A text is read that cannot be read with a suffix, but the URL has no path. -/
def Pathless (plain suffixed : Except Fault Url) : Prop :=
  suffixed.toOption = none ∧ ∀ u ∈ plain.toOption, u.location = .segments []

variable {k : SchemeKind} {scheme : String} {base : Url} {cs suffix : List Char}

/-- A path ends where its suffix starts. -/
theorem splitPath_append (hcs : ∀ c ∈ cs, inPath c = true)
    (hsuffix : ∀ c ∈ suffix.head?, inPath c = false) :
    splitPath (cs ++ suffix) = (cs, suffix) := by
  have hsplit : splitPath (cs ++ suffix) =
      ((cs ++ suffix).takeWhile inPath, (cs ++ suffix).dropWhile inPath) :=
    List.span_eq_takeWhile_dropWhile _ _
  rw [hsplit, Text.takeWhile_append_of_head hsuffix, Text.dropWhile_append_of_head hsuffix,
    List.takeWhile_eq_self_iff.mpr hcs, List.dropWhile_eq_nil_iff.mpr hcs, List.nil_append]

/-- A text of path characters has no suffix. -/
theorem splitPath_of_inPath (hcs : ∀ c ∈ cs, inPath c = true) : splitPath cs = (cs, []) := by
  have h : splitPath (cs ++ []) = (cs, []) := splitPath_append hcs (by simp)
  rwa [List.append_nil] at h

/-- A path ends at a question mark or a number sign. -/
theorem eq_mark_of_inPath {c : Char} (h : inPath c = false) : c = '?' ∨ c = '#' := by
  simpa only [inPath, Bool.and_eq_false_iff, bne_eq_false_iff_eq] using h

/-- A suffix starts with a question mark or a number sign. -/
theorem eq_mark_of_head (hsuffix : ∀ c ∈ suffix.head?, inPath c = false) :
    ∀ c ∈ suffix.head?, c = '?' ∨ c = '#' := fun c hc => eq_mark_of_inPath (hsuffix c hc)

/-- An authority ends where a suffix starts. -/
theorem inAuthority_of_head (hsuffix : ∀ c ∈ suffix.head?, inPath c = false) :
    ∀ c ∈ suffix.head?, inAuthority k c = false := by
  intro c hc
  rcases eq_mark_of_head hsuffix c hc with rfl | rfl <;> simp [inAuthority]

/-- A suffix stands behind the authority. -/
theorem splitAuthority_append (hsuffix : ∀ c ∈ suffix.head?, inPath c = false)
    (cs : List Char) : splitAuthority k (cs ++ suffix) =
      ((splitAuthority k cs).1, (splitAuthority k cs).2 ++ suffix) := by
  rw [splitAuthority_eq, splitAuthority_eq,
    Text.takeWhile_append_of_head (inAuthority_of_head hsuffix),
    Text.dropWhile_append_of_head (inAuthority_of_head hsuffix)]

/-- What follows an authority carries the suffix. -/
theorem finishAuthority_append (hk : SchemeKind.of scheme = k) (a : Authority)
    (hcs : ∀ c ∈ cs, inPath c = true) (hsuffix : ∀ c ∈ suffix.head?, inPath c = false) :
    finishAuthority scheme k a (cs ++ suffix) =
      (finishAuthority scheme k a cs).withSuffix suffix := by
  unfold finishAuthority withSuffix
  rw [splitPath_append hcs hsuffix, splitPath_of_inPath hcs, hk]

/-- What starts with a character of a path goes on from the base. -/
theorem continueBase_cons {c : Char} (hc : inPath c = true) (rest : List Char) :
    continueBase base k (c :: rest) =
      { base with
        location := .segments
          (extend k (dropSegment k base.segmentsOf) (splitPath (c :: rest)).1)
        query := (queryAndFragment k (splitPath (c :: rest)).2).1
        fragment := (queryAndFragment k (splitPath (c :: rest)).2).2 } := by
  unfold continueBase
  split
  · rename_i heq
    cases heq
  · rename_i heq
    rw [(List.cons.inj heq).1] at hc
    cases hc
  · rename_i heq
    rw [(List.cons.inj heq).1] at hc
    cases hc
  · rfl

/-- What goes on from a base carries the suffix. -/
theorem continueBase_append (hk : SchemeKind.of base.scheme = k) (hne : cs ≠ [])
    (hcs : ∀ c ∈ cs, inPath c = true) (hsuffix : ∀ c ∈ suffix.head?, inPath c = false) :
    continueBase base k (cs ++ suffix) = (continueBase base k cs).withSuffix suffix := by
  have hsplit := splitPath_append hcs hsuffix
  have hplain := splitPath_of_inPath hcs
  obtain ⟨c, rest, rfl⟩ := List.exists_cons_of_ne_nil hne
  have hc := hcs c List.mem_cons_self
  rw [List.cons_append] at hsplit ⊢
  rw [continueBase_cons hc, continueBase_cons hc, hsplit, hplain, withSuffix, hk]

/-- What starts at the root carries the suffix. -/
theorem fromRoot_append (hk : SchemeKind.of base.scheme = k) (hcs : ∀ c ∈ cs, inPath c = true)
    (hsuffix : ∀ c ∈ suffix.head?, inPath c = false) :
    parseRelative.fromRoot base k (cs ++ suffix) =
      (parseRelative.fromRoot base k cs).withSuffix suffix := by
  rw [parseRelative.fromRoot, parseRelative.fromRoot, splitPath_append hcs hsuffix,
    splitPath_of_inPath hcs, withSuffix, hk]

/-- A suffix has no part in whether a drive comes first. -/
theorem startsWithDrive_append (hsuffix : ∀ c ∈ suffix.head?, inPath c = false)
    (cs : List Char) : startsWithDrive (cs ++ suffix) = startsWithDrive cs := by
  have hmark := eq_mark_of_head hsuffix
  unfold startsWithDrive
  match cs with
  | a :: b :: rest =>
    simp only [List.cons_append, List.take_succ_cons, List.take_zero, List.drop_succ_cons,
      List.drop_zero]
    cases rest with
    | cons d more => rfl
    | nil =>
      cases suffix with
      | nil => rfl
      | cons m more => rcases hmark m rfl with rfl | rfl <;> simp
  | [a] =>
    cases suffix with
    | nil => rfl
    | cons m more => rcases hmark m rfl with rfl | rfl <;> simp [isDriveWith]
  | [] =>
    cases suffix with
    | nil => rfl
    | cons m more =>
      have halpha : m.isAlpha = false := by rcases hmark m rfl with rfl | rfl <;> decide
      cases more <;> simp [isDriveWith, halpha]

/-- What starts at the root of a file carries the suffix. -/
theorem rooted_append {base? : Option Url} (hcs : ∀ c ∈ cs, inPath c = true)
    (hsuffix : ∀ c ∈ suffix.head?, inPath c = false) :
    parseFile.rooted base? (cs ++ suffix) = (parseFile.rooted base? cs).withSuffix suffix := by
  rw [parseFile.rooted, parseFile.rooted, splitPath_append hcs hsuffix, splitPath_of_inPath hcs,
    startsWithDrive_append hsuffix]
  rfl

/-- What is relative to a file carries the suffix. -/
theorem relative_append {base? : Option Url} (hbase : ∀ base ∈ base?, base.scheme = "file")
    (hne : cs ≠ []) (hcs : ∀ c ∈ cs, inPath c = true)
    (hsuffix : ∀ c ∈ suffix.head?, inPath c = false) :
    parseFile.relative base? (cs ++ suffix) = (parseFile.relative base? cs).withSuffix suffix := by
  have hfile : SchemeKind.of "file" = .file := rfl
  have hfinish := finishAuthority_append hfile {} hcs hsuffix
  cases base? with
  | none => exact hfinish
  | some base =>
    have hkind : SchemeKind.of base.scheme = .file := by rw [hbase base rfl]; rfl
    rw [parseFile.relative, parseFile.relative, startsWithDrive_append hsuffix]
    split
    · exact hfinish
    · exact continueBase_append hkind hne hcs hsuffix

/-- A suffix stands behind the host of a file. -/
theorem parseFileHost_append (hsuffix : ∀ c ∈ suffix.head?, inPath c = false)
    (cs : List Char) : parseFileHost (cs ++ suffix) =
      (parseFileHost cs).map fun (host, rest) => (host, rest ++ suffix) := by
  have hstops : ∀ c ∈ suffix.head?, (!"/\\?#".toList.contains c) = false := by
    intro c hc
    rcases eq_mark_of_head hsuffix c hc with rfl | rfl <;> decide
  unfold parseFileHost
  simp only [List.span_eq_takeWhile_dropWhile, Text.takeWhile_append_of_head hstops,
    Text.dropWhile_append_of_head hstops]
  split
  · rfl
  · split
    · rfl
    · cases parseHost (cs.takeWhile fun c => !"/\\?#".toList.contains c) <;> rfl

/-- Nothing before the last mark and nothing after it leaves the mark. -/
theorem eq_mark_of_splitAtLast {mark : Char} (h : splitAtLast mark cs = (some [], [])) :
    cs = [mark] := by
  unfold splitAtLast at h
  dsimp only at h
  split at h
  · cases h
  · rename_i hlength
    obtain ⟨htake, hafter⟩ := Prod.mk.inj h
    rw [hafter] at htake hlength
    have hshort : cs.length ≤ 1 := by
      have := congrArg List.length (Option.some.inj htake)
      simp at this
      omega
    match cs, hshort with
    | [], _ => simp at hlength
    | [c], _ =>
      by_cases hc : c = mark
      · rw [hc]
      · simp [hc] at hafter

/-- Only a user without a host is read differently when something follows. -/
theorem parseAuthority_append (scheme : String) (hk : k ≠ .file)
    (hsuffix : ∀ c ∈ suffix.head?, inPath c = false) (cs : List Char) :
    parseAuthority scheme k (cs ++ suffix) =
        (parseAuthority scheme k cs).map (fun (a, rest) => (a, rest ++ suffix)) ∨
      k = .foreign ∧ cs = ['@'] ∧ parseAuthority scheme k (cs ++ suffix) = .error .emptyHost := by
  have hcut : (splitAuthority k cs).1 ++ (splitAuthority k cs).2 = cs := by
    rw [splitAuthority_eq, List.takeWhile_append_dropWhile]
  rw [parseAuthority_eq, parseAuthority_eq, splitAuthority_append hsuffix]
  dsimp only
  generalize (splitAuthority k cs).1 = text at hcut ⊢
  generalize (splitAuthority k cs).2 = rest at hcut ⊢
  rcases hlast : splitAtLast '@' text with ⟨userInfo?, hostAndPort⟩
  dsimp only
  by_cases hbare : userInfo? = some [] ∧ hostAndPort = [] ∧ rest = [] ∧ suffix ≠ []
  · obtain ⟨rfl, rfl, rfl, hne⟩ := hbare
    cases k with
    | file => exact absurd rfl hk
    | special =>
      refine Or.inl ?_
      simp [hne, splitPort, Except.map]
    | foreign =>
      rw [List.append_nil] at hcut
      refine Or.inr ⟨rfl, ?_, by simp [hne]⟩
      rw [← hcut, eq_mark_of_splitAtLast hlast]
  · have hguard : (userInfo? == some [] && hostAndPort.isEmpty && !(rest ++ suffix).isEmpty) =
        (userInfo? == some [] && hostAndPort.isEmpty && !rest.isEmpty) := by
      by_cases hrest : rest = []
      · subst hrest
        by_cases hempty : suffix = []
        · rw [hempty, List.append_nil]
        · have hfull : ¬ (userInfo? = some [] ∧ hostAndPort = []) :=
            fun h => hbare ⟨h.1, h.2, rfl, hempty⟩
          have hnot : (userInfo? == some [] && hostAndPort.isEmpty) = false := by
            rw [Bool.eq_false_iff]
            simpa using hfull
          rw [hnot, Bool.false_and, Bool.false_and]
      · have hfull : (rest ++ suffix).isEmpty = rest.isEmpty := by
          rw [List.isEmpty_eq_false_iff.mpr hrest, List.isEmpty_eq_false_iff]
          exact List.append_ne_nil_of_left_ne_nil hrest _
        rw [hfull]
    refine Or.inl ?_
    rw [hguard]
    split
    · rfl
    split
    · rfl
    cases hostOf k (splitPort false hostAndPort).1 with
    | error f => rfl
    | ok host =>
      dsimp only [bind, Except.bind]
      split
      · rfl
      cases portOf scheme (splitPort false hostAndPort).2 with
      | error f => rfl
      | ok port =>
        dsimp only
        split
        · rfl
        · simp [Except.map]

/-- What stands behind the last mark is in the text. -/
theorem splitAtLast_snd_subset (mark : Char) (cs : List Char) : (splitAtLast mark cs).2 ⊆ cs := by
  unfold splitAtLast
  dsimp only
  split
  · exact List.Subset.refl _
  · intro c hc
    exact List.mem_reverse.mp ((List.takeWhile_sublist _).subset (List.mem_reverse.mp hc))

/-- What stands behind a port is in the text. -/
theorem portOf_subset {port : Option Nat × List Char} (h : portOf scheme cs = .ok port) :
    port.2 ⊆ cs := by
  cases cs with
  | nil =>
    obtain rfl := Except.ok.inj h
    exact List.Subset.refl _
  | cons mark digits =>
    have hrest : port.2 = digits.dropWhile Char.isDigit := by
      rw [portOf, parsePort] at h
      simp only [List.span_eq_takeWhile_dropWhile] at h
      split at h
      · cases h
      split at h
      · cases h
      split at h <;> rw [← Except.ok.inj h]
    rw [hrest]
    exact fun c hc => List.mem_cons_of_mem _ ((List.dropWhile_sublist _).subset hc)

/-- What is left after an authority was read. -/
theorem rest_subset_of_parseAuthority {a : Authority} {rest : List Char}
    (h : parseAuthority scheme k cs = .ok (a, rest)) : rest ⊆ cs := by
  have htext : (splitAuthority k cs).1 ⊆ cs := by
    rw [splitAuthority_eq]
    exact (List.takeWhile_sublist _).subset
  have hrest : (splitAuthority k cs).2 ⊆ cs := by
    rw [splitAuthority_eq]
    exact (List.dropWhile_sublist _).subset
  rw [parseAuthority_eq] at h
  dsimp only at h
  split at h
  · cases h
  split at h
  · cases h
  obtain ⟨host, -, h⟩ := exists_of_bind_eq_ok h
  split at h
  · cases h
  obtain ⟨port, hport, h⟩ := exists_of_bind_eq_ok h
  split at h
  · cases h
  obtain ⟨-, rfl⟩ := Prod.mk.inj (Except.ok.inj h)
  have hportText := splitPort_fst_append_snd false (splitAtLast '@' (splitAuthority k cs).1).2
  intro c hc
  rcases List.mem_append.mp hc with hc | hc
  · refine htext (splitAtLast_snd_subset '@' _ ?_)
    rw [← hportText]
    exact List.mem_append_right _ (portOf_subset hport hc)
  · exact hrest hc

/-- What stands after the slashes carries the suffix, unless it is an authority that ends in the
mark of a user. -/
theorem afterSlashes_append (hkind : SchemeKind.of scheme = k) (hk : k ≠ .file)
    (hcs : ∀ c ∈ cs, inPath c = true) (hsuffix : ∀ c ∈ suffix.head?, inPath c = false) :
    Carried suffix (afterSlashes scheme k cs) (afterSlashes scheme k (cs ++ suffix)) ∨
      cs = ['@'] ∧ Pathless (afterSlashes scheme k cs) (afterSlashes scheme k (cs ++ suffix)) := by
  have hafter (cs : List Char) : afterSlashes scheme k cs =
      (parseAuthority scheme k cs).map fun (a, rest) => finishAuthority scheme k a rest := by
    unfold afterSlashes
    rcases parseAuthority scheme k cs with _ | _ <;> rfl
  rw [hafter, hafter]
  rcases parseAuthority_append scheme hk hsuffix cs with happend | ⟨rfl, rfl, herror⟩
  · refine Or.inl ?_
    rw [happend, Carried]
    cases hread : parseAuthority scheme k cs with
    | error f => rfl
    | ok read =>
      obtain ⟨a, rest⟩ := read
      have hrest : ∀ c ∈ rest, inPath c = true := fun c hc =>
        hcs c (rest_subset_of_parseAuthority hread hc)
      exact congrArg some (finishAuthority_append hkind a hrest hsuffix)
  · refine Or.inr ⟨rfl, by rw [herror]; rfl, ?_⟩
    rintro u ⟨⟩
    rfl

/-- What is read against a base carries the suffix, unless it ends in the mark of a user and gives
no path. -/
theorem parseRelative_append (hk : k ≠ .file) (hkind : SchemeKind.of base.scheme = k)
    (hlong : 2 ≤ cs.length) (hcs : ∀ c ∈ cs, inPath c = true)
    (hsuffix : ∀ c ∈ suffix.head?, inPath c = false) :
    Carried suffix (parseRelative base k cs) (parseRelative base k (cs ++ suffix)) ∨
      cs.getLast? = some '@' ∧
        Pathless (parseRelative base k cs) (parseRelative base k (cs ++ suffix)) := by
  match cs, hlong with
  | a :: b :: rest, _ =>
    have hrest : ∀ c ∈ b :: rest, inPath c = true := fun c hc => hcs c (List.mem_cons_of_mem _ hc)
    have hstops : ∀ c ∈ suffix.head?, (c == '/' || c == '\\') = false := by
      intro c hc
      rcases eq_mark_of_head hsuffix c hc with rfl | rfl <;> decide
    rw [List.cons_append, List.cons_append, parseRelative, parseRelative]
    dsimp only
    split
    · rw [Text.dropWhile_append_of_head hstops, ← apply_ite (· ++ suffix)]
      set host := if (k == .special || !(a == '/' && b == '/')) = true
        then rest.dropWhile fun c => c == '/' || c == '\\' else rest with hhost
      have hend : host <:+ rest := by
        rw [hhost]
        split
        · exact List.dropWhile_suffix _
        · exact List.suffix_refl _
      have hplain : ∀ c ∈ host, inPath c = true := fun c hc =>
        hrest c (List.mem_cons_of_mem _ (hend.subset hc))
      refine (afterSlashes_append hkind hk hplain hsuffix).imp_right fun ⟨heq, hpathless⟩ =>
        ⟨?_, hpathless⟩
      rw [heq] at hend
      obtain ⟨front, rfl⟩ := hend
      exact List.getLast?_concat (l := a :: b :: front)
    · split
      · exact Or.inl (congrArg some (fromRoot_append hkind hrest hsuffix))
      · exact Or.inl (congrArg some (continueBase_append hkind (List.cons_ne_nil _ _) hcs hsuffix))

/-- What stands behind the host of a file is in the text, but for the slash before it. -/
theorem rest_subset_of_parseFileHost {host : Option Host} {rest : List Char}
    (h : parseFileHost cs = .ok (host, rest)) : rest ⊆ '/' :: cs := by
  have hback : cs.dropWhile (fun c => !"/\\?#".toList.contains c) ⊆ '/' :: cs := fun c hc =>
    List.mem_cons_of_mem _ ((List.dropWhile_sublist _).subset hc)
  unfold parseFileHost at h
  simp only [List.span_eq_takeWhile_dropWhile] at h
  split at h
  · obtain ⟨-, rfl⟩ := Prod.mk.inj (Except.ok.inj h)
    exact List.Subset.refl _
  · split at h
    · obtain ⟨-, rfl⟩ := Prod.mk.inj (Except.ok.inj h)
      exact hback
    · obtain ⟨_, -, h⟩ := exists_of_map_eq_ok h
      obtain ⟨-, rfl⟩ := Prod.mk.inj h
      exact hback

/-- The URL of a file is read up to the suffix. -/
theorem parseFile_append {base? : Option Url} (hbase : ∀ base ∈ base?, base.scheme = "file")
    (hlong : 2 ≤ cs.length) (hcs : ∀ c ∈ cs, inPath c = true)
    (hsuffix : ∀ c ∈ suffix.head?, inPath c = false) :
    Carried suffix (parseFile base? cs) (parseFile base? (cs ++ suffix)) := by
  match cs, hlong with
  | a :: b :: rest, _ =>
    have hrest : ∀ c ∈ b :: rest, inPath c = true := fun c hc => hcs c (List.mem_cons_of_mem _ hc)
    rw [List.cons_append, List.cons_append, parseFile, parseFile]
    dsimp only
    split
    · rw [parseFileHost_append hsuffix]
      cases hhost : parseFileHost rest with
      | error f => rfl
      | ok read =>
        obtain ⟨host, path⟩ := read
        have hpath : ∀ c ∈ path, inPath c = true := by
          intro c hc
          rcases List.mem_cons.mp (rest_subset_of_parseFileHost hhost hc) with rfl | hc
          · decide
          · exact hrest c (List.mem_cons_of_mem _ hc)
        have hfile : SchemeKind.of "file" = .file := rfl
        have hfinish := finishAuthority_append hfile { host := host } hpath hsuffix
        refine congrArg some ?_
        dsimp only
        rw [hfinish, segmentsOf_withSuffix]
        split <;> rfl
    · split
      · exact congrArg some (rooted_append hrest hsuffix)
      · exact congrArg some (relative_append hbase (List.cons_ne_nil _ _) hcs hsuffix)

/-- Only one scheme is that of files. -/
theorem eq_file_of_kind (h : SchemeKind.of scheme = .file) : scheme = "file" := by
  unfold SchemeKind.of at h
  split at h
  · simpa using ‹(scheme == "file") = true›
  · split at h <;> cases h

/-- The scheme of files is read before its colon. -/
theorem splitScheme?_file (rest : List Char) :
    splitScheme? ("file:".toList ++ rest) = some ("file", rest) :=
  splitScheme?_eq_some_iff.mpr ⟨"file".toList, rfl, ⟨'f', rfl, by decide⟩,
    List.all_eq_true.mp (by decide), by decide⟩

/-- What starts with neither a letter nor a fragment is read against a base. -/
theorem join_of_head {s : String} {c : Char} {rest : List Char} (h : clean s = c :: rest)
    (hc : c.isAlpha = false) (hfragment : c ≠ '#') :
    base.join s = match base.location, SchemeKind.of base.scheme with
      | .plain _, _ => .error .relativeWithPlainBase
      | .segments _, .file => parseFile (some base) (c :: rest)
      | .segments _, k => parseRelative base k (c :: rest) := by
  have hscheme : splitScheme? (c :: rest) = none := by simp [splitScheme?, hc]
  rw [join, parseWith, h, hscheme]
  dsimp only
  cases base.location with
  | plain text =>
    split
    · rename_i heq
      exact absurd (List.cons.inj heq).1 hfragment
    · rfl
    · cases ‹UrlPath.plain text = _›
  | segments names =>
    split
    · rename_i heq
      exact absurd (List.cons.inj heq).1 hfragment
    · cases ‹UrlPath.segments names = _›
    · cases SchemeKind.of base.scheme <;> rfl

/-- The fronts that a path has when it is read. -/
def readFronts : List String := ["file://", ".", "/"]

/-- A path with a suffix is read against a base as the path is. -/
theorem join_append {p q : String} (hclean : clean (p ++ q) = clean p ++ suffix)
    (hfront : ∃ front ∈ readFronts, front.toList <+: clean p) (hlong : 2 ≤ (clean p).length)
    (hcs : ∀ c ∈ clean p, inPath c = true) (hsuffix : ∀ c ∈ suffix.head?, inPath c = false) :
    Carried suffix (base.join p) (base.join (p ++ q)) ∨
      (clean p).getLast? = some '@' ∧ Pathless (base.join p) (base.join (p ++ q)) := by
  have hrelative {c : Char} {rest : List Char} (hp : clean p = c :: rest)
      (hc : c.isAlpha = false) (hfragment : c ≠ '#') :
      Carried suffix (base.join p) (base.join (p ++ q)) ∨
        (clean p).getLast? = some '@' ∧ Pathless (base.join p) (base.join (p ++ q)) := by
    rw [hp] at hclean hlong hcs ⊢
    rw [join_of_head hp hc hfragment, join_of_head hclean hc hfragment]
    cases base.location with
    | plain text => exact Or.inl rfl
    | segments names =>
      cases hkind : SchemeKind.of base.scheme with
      | file =>
        refine Or.inl (parseFile_append ?_ hlong hcs hsuffix)
        rintro base ⟨⟩
        exact eq_file_of_kind hkind
      | special => exact parseRelative_append (by decide) hkind hlong hcs hsuffix
      | foreign => exact parseRelative_append (by decide) hkind hlong hcs hsuffix
  obtain ⟨front, hmem, rest, hp⟩ := hfront
  simp only [readFronts, List.mem_cons, List.not_mem_nil, or_false] at hmem
  rcases hmem with rfl | rfl | rfl
  · have hsplit (cs : List Char) : splitScheme? ("file://".toList ++ cs) =
        some ("file", '/' :: '/' :: cs) := splitScheme?_file ('/' :: '/' :: cs)
    rw [join, join, parseWith, parseWith, hclean, ← hp, List.append_assoc, hsplit, hsplit]
    refine Or.inl (parseFile_append ?_ ?_ ?_ hsuffix)
    · intro base hbase
      simpa using (Option.mem_filter_iff.mp hbase).2
    · simp
    · rw [← hp] at hcs
      exact fun c hc => hcs c (List.mem_append_right "file:".toList hc)
  · exact hrelative hp.symm (by decide) (by decide)
  · exact hrelative hp.symm (by decide) (by decide)

/-- A path that ends in something visible other than a slash and has no suffix itself. -/
structure BarePath (p : String) : Prop where
  front : Specifier.hasPathFront p = true
  plain : ∀ c ∈ p.toList, inPath c = true
  last : ∃ c, p.toList.getLast? = some c ∧ 0x20 < c.val.toNat ∧ c ≠ '/'

/-- A query or a fragment with its mark. -/
def IsSuffix (q : String) : Prop := ∃ c ∈ q.toList.head?, inPath c = false

variable {p q : String}

/-- A bare path does not end like a directory. -/
theorem BarePath.isDirectory_eq (h : BarePath p) : Specifier.isDirectory p = false := by
  obtain ⟨c, hc, -, hslash⟩ := h.last
  rw [Bool.eq_false_iff, ne_eq, Specifier.isDirectory_iff, hc]
  exact fun heq => hslash (Option.some.inj heq)

/-- Reading keeps the front of a path and its end. -/
theorem BarePath.clean_eq (h : BarePath p) :
    (∃ front ∈ readFronts, front.toList <+: clean p) ∧ 2 ≤ (clean p).length ∧
      (clean p).getLast? = p.toList.getLast? := by
  obtain ⟨c, hlast, hvisible, hslash⟩ := h.last
  obtain ⟨before, hbefore⟩ := List.getLast?_eq_some_iff.mp hlast
  have hend : clean p = cleanFront before ++ [c] := by
    have hclean := clean_append (List.cons_ne_nil c []) (by simpa using hvisible) before []
    rwa [List.append_nil, ← hbefore, String.ofList_toList] at hclean
  obtain ⟨front, hmem, rest, hrest⟩ := Specifier.hasPathFront_iff.mp h.front
  have hstart : clean p = front.toList ++ cleanBack rest := by
    have hfront : front.toList ≠ [] ∧ ∀ c ∈ front.toList, 0x20 < c.val.toNat := by
      simp only [Specifier.pathFronts, List.mem_cons, List.not_mem_nil, or_false] at hmem
      rcases hmem with rfl | rfl | rfl | rfl <;> exact ⟨by decide, visible_of_all (by decide)⟩
    have hclean := clean_append hfront.1 hfront.2 [] rest
    rwa [List.nil_append, hrest, String.ofList_toList] at hclean
  have hback : cleanBack rest ≠ [] := by
    intro hnil
    rw [hnil, List.append_nil] at hstart
    have hfront : front.toList.getLast? = some '/' := by
      simp only [Specifier.pathFronts, List.mem_cons, List.not_mem_nil, or_false] at hmem
      rcases hmem with rfl | rfl | rfl | rfl <;> decide
    rw [← hstart, hend, List.getLast?_concat] at hfront
    exact hslash (Option.some.inj hfront)
  refine ⟨?_, ?_, by rw [hend, hlast, List.getLast?_concat]⟩
  · simp only [Specifier.pathFronts, List.mem_cons, List.not_mem_nil, or_false] at hmem
    have hprefix : front.toList <+: clean p := ⟨_, hstart.symm⟩
    rcases hmem with rfl | rfl | rfl | rfl
    · exact ⟨"file://", by decide, hprefix⟩
    · exact ⟨".", by decide, (by decide : ".".toList <+: "./".toList).trans hprefix⟩
    · exact ⟨".", by decide, (by decide : ".".toList <+: "../".toList).trans hprefix⟩
    · exact ⟨"/", by decide, hprefix⟩
  · have hpos : 0 < front.toList.length := by
      simp only [Specifier.pathFronts, List.mem_cons, List.not_mem_nil, or_false] at hmem
      rcases hmem with rfl | rfl | rfl | rfl <;> decide
    have := List.length_pos_iff.mpr hback
    rw [hstart, List.length_append]
    omega

/-- A suffix may have more behind it. -/
theorem IsSuffix.append (h : IsSuffix q) (t : String) : IsSuffix (q ++ t) := by
  obtain ⟨c, hc, hmark⟩ := h
  refine ⟨c, ?_, hmark⟩
  rw [String.toList_append, List.head?_append, Option.mem_def.mp hc]
  rfl

/-- A suffix starts with what ends a path. -/
theorem IsSuffix.stops (h : IsSuffix q) : ∀ c ∈ q.toList.head?, inPath c = false := by
  obtain ⟨d, hd, hmark⟩ := h
  intro c hc
  obtain rfl := Option.some.inj ((Option.mem_def.mp hd).symm.trans hc)
  exact hmark

/-- Nothing is cleaned from the start of a suffix. -/
theorem IsSuffix.head?_cleanBack (h : IsSuffix q) :
    (cleanBack q.toList).head? = q.toList.head? := by
  refine Url.head?_cleanBack fun c hc => ?_
  rcases eq_mark_of_head h.stops c hc with rfl | rfl <;> decide

/-- A path is read against a base with a suffix as it is without one, unless it ends in the mark of
a user and has no path. -/
theorem BarePath.join_append (h : BarePath p) (hq : IsSuffix q) (base : Url) :
    Carried (cleanBack q.toList) (base.join p) (base.join (p ++ q)) ∨
      p.toList.getLast? = some '@' ∧ Pathless (base.join p) (base.join (p ++ q)) := by
  obtain ⟨hfront, hlong, hend⟩ := h.clean_eq
  obtain ⟨c, hlast, hvisible, -⟩ := h.last
  obtain ⟨before, hbefore⟩ := List.getLast?_eq_some_iff.mp hlast
  have hclean : clean (p ++ q) = clean p ++ cleanBack q.toList := by
    have hclean := clean_append (List.cons_ne_nil c []) (by simpa using hvisible) before
    have hplain := hclean []
    have hsuffixed := hclean q.toList
    rw [List.append_nil, ← hbefore, String.ofList_toList] at hplain
    rw [← List.append_assoc, ← hbefore, String.ofList_append, String.ofList_toList,
      String.ofList_toList] at hsuffixed
    rw [hsuffixed, hplain]
    simp
  rw [← hend]
  refine Url.join_append hclean hfront hlong (fun c hc => h.plain c (clean_subset p hc)) ?_
  rw [hq.head?_cleanBack]
  exact hq.stops

/-- A text with more behind it is encoded as another. -/
theorem encode_append_ne {isEncoded : Char → Bool} {more : List Char} (h : more ≠ [])
    (cs : List Char) :
    String.ofList (encode isEncoded (cs ++ more)) ≠ String.ofList (encode isEncoded cs) := by
  intro heq
  have hlength := congrArg (fun s => s.toList.length) heq
  have hmore := length_le_encode isEncoded more
  have hpos := List.length_pos_iff.mpr h
  simp only [String.toList_ofList, encode_append, List.length_append] at hlength
  omega

/-- A question mark is followed by a query up to the next number sign, and by a fragment behind
that. -/
theorem queryAndFragment_query (k : SchemeKind) (rest : List Char) :
    queryAndFragment k ('?' :: rest) =
      (some (String.ofList (encode (isEncodedInQuery (k != .foreign)) (rest.takeWhile (· != '#')))),
        if (rest.dropWhile (· != '#')).isEmpty then none
        else some (fragmentOf ((rest.dropWhile (· != '#')).drop 1))) := by
  simp only [queryAndFragment, List.span_eq_takeWhile_dropWhile]

/-- What follows a suffix makes another one of it. -/
theorem queryAndFragment_append_ne {more : List Char} (hne : more ≠ []) (hmore : '#' ∉ more)
    {c : Char} (hc : inPath c = false) (rest : List Char) :
    queryAndFragment k (c :: (rest ++ more)) ≠ queryAndFragment k (c :: rest) := by
  intro heq
  rcases eq_mark_of_inPath hc with rfl | rfl
  · rw [queryAndFragment_query, queryAndFragment_query] at heq
    obtain ⟨hquery, hfragment⟩ := Prod.mk.inj heq
    by_cases hmark : '#' ∈ rest
    · obtain ⟨front, back, hrest, hfront⟩ := List.eq_append_cons_of_mem hmark
      have hall : ∀ d ∈ front, (d != '#') = true := by
        intro d hd
        rw [bne_iff_ne]
        rintro rfl
        exact hfront hd
      have hdrop (l : List Char) : (front ++ '#' :: l).dropWhile (· != '#') = '#' :: l := by
        rw [List.dropWhile_append_of_pos hall, List.dropWhile_cons_of_neg (by simp)]
      rw [hrest, List.append_assoc, List.cons_append, hdrop, hdrop] at hfragment
      exact encode_append_ne hne back (Option.some.inj hfragment)
    · have hall {l : List Char} (hl : '#' ∉ l) : l.takeWhile (· != '#') = l := by
        rw [List.takeWhile_eq_self_iff]
        intro d hd
        rw [bne_iff_ne]
        rintro rfl
        exact hl hd
      rw [hall hmark, hall (by simp [hmark, hmore])] at hquery
      exact encode_append_ne hne rest (Option.some.inj hquery)
  · obtain ⟨-, hfragment⟩ := Prod.mk.inj heq
    exact encode_append_ne hne rest (Option.some.inj hfragment)

end ScriptModules.Url

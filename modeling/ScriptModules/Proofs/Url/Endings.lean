import ScriptModules.Proofs.Url.Foreign
import ScriptModules.Proofs.Url.Hosts

/-!
# URLs with other endings

Only what stands between two slashes and a path can keep a text with a scheme from being read. A
text that is read stays so with another ending in the place of one, and with a name after the slash
that it ends with.
-/

namespace ScriptModules.Url

variable {scheme : String} {k : SchemeKind} {cs e e' : List Char}

/-- What belongs to an authority. -/
def inAuthority (k : SchemeKind) (c : Char) : Bool :=
  !(c == '/' || c == '?' || c == '#' || (k != .foreign && c == '\\'))

/-- An authority goes on as long as something belongs to it. -/
theorem splitAuthority_eq (k : SchemeKind) (cs : List Char) :
    splitAuthority k cs = (cs.takeWhile (inAuthority k), cs.dropWhile (inAuthority k)) :=
  List.span_eq_takeWhile_dropWhile _ _

/-- An ending belongs to an authority. -/
theorem IsEnding.inAuthority (h : IsEnding e) (k : SchemeKind) :
    ∀ c ∈ e, inAuthority k c = true := by
  intro c hc
  have hne {d : Char} (hd : isForbiddenInHost d = true) : c ≠ d := by
    rintro rfl
    exact h.not_mem hd hc
  simp [Url.inAuthority, hne (d := '/') (by decide), hne (d := '?') (by decide),
    hne (d := '#') (by decide), hne (d := '\\') (by decide)]

/-- An ending may stand in a scheme. -/
theorem IsEnding.inScheme (h : IsEnding e) : ∀ c ∈ e, inScheme c = true := by
  obtain ⟨letters, rfl, -, hletters⟩ := h
  intro c hc
  rcases List.mem_cons.mp hc with rfl | hc
  · decide
  · rw [Url.inScheme, isAlphanum_of_isLower (hletters c hc), Bool.true_or]

/-- What holds no mark is behind the last one. -/
theorem splitAtLast_append {mark : Char} (h : mark ∉ e) (cs : List Char) :
    splitAtLast mark (cs ++ e) = ((splitAtLast mark cs).1, (splitAtLast mark cs).2 ++ e) := by
  have hall : ∀ c ∈ e.reverse, (c != mark) = true := by
    intro c hc
    rw [bne_iff_ne]
    rintro rfl
    exact h (List.mem_reverse.mp hc)
  have hafter : ((cs ++ e).reverse.takeWhile (· != mark)).reverse =
      (cs.reverse.takeWhile (· != mark)).reverse ++ e := by
    rw [List.reverse_append, List.takeWhile_append_of_pos hall, List.reverse_append,
      List.reverse_reverse]
  have hlength : (cs.reverse.takeWhile (· != mark)).reverse.length ≤ cs.length := by
    have hle := (List.takeWhile_prefix (· != mark) (l := cs.reverse)).length_le
    simpa using hle
  unfold splitAtLast
  rw [hafter]
  dsimp only
  rw [List.length_append, List.length_append]
  generalize (cs.reverse.takeWhile (· != mark)).reverse = after at hlength
  by_cases hwhole : after.length = cs.length
  · simp [hwhole]
  · have htake : (cs ++ e).take (cs.length + e.length - (after.length + e.length) - 1) =
        cs.take (cs.length - after.length - 1) := by
      rw [Nat.add_sub_add_right, List.take_append_of_le_length (by omega)]
    simp [hwhole, htake]

/-- What has no colon and no bracket goes on with the host before it, or with the port. -/
theorem splitPort_append (h : ∀ c ∈ e, c ∉ [':', '[', ']']) (inside : Bool) (cs : List Char) :
    splitPort inside (cs ++ e) =
      if (splitPort inside cs).2 = [] then (cs ++ e, [])
      else ((splitPort inside cs).1, (splitPort inside cs).2 ++ e) := by
  induction cs generalizing inside with
  | nil =>
    have hall (inside : Bool) : splitPort inside e = (e, []) := by
      induction e generalizing inside with
      | nil => rfl
      | cons c rest ih =>
        have hc := h c List.mem_cons_self
        simp only [List.mem_cons, List.not_mem_nil, or_false, not_or] at hc
        simp [splitPort, hc, ih fun d hd => h d (List.mem_cons_of_mem _ hd)]
    rw [List.nil_append, hall]
    rfl
  | cons c rest ih =>
    rw [List.cons_append, splitPort, splitPort]
    split
    · simp
    · dsimp only
      rw [ih]
      generalize (if c == '[' then true else if c == ']' then false else inside) = inside
      cases (splitPort inside rest).2 <;> simp

/-- A port is split off without a loss. -/
theorem splitPort_fst_append_snd (inside : Bool) (cs : List Char) :
    (splitPort inside cs).1 ++ (splitPort inside cs).2 = cs := by
  induction cs generalizing inside with
  | nil => rfl
  | cons c rest ih =>
    rw [splitPort]
    split
    · rfl
    · exact congrArg (c :: ·) (ih _)

/-- The port of a text from its colon on. -/
def portOf (scheme : String) : List Char → Except Fault (Option Nat × List Char)
  | [] => .ok (none, [])
  | _ :: digits => parsePort scheme digits

/-- An authority is read in its parts, with what follows it. -/
theorem parseAuthority_eq (scheme : String) (k : SchemeKind) (cs : List Char) :
    parseAuthority scheme k cs =
      let (text, rest) := splitAuthority k cs
      let (userInfo?, hostAndPort) := splitAtLast '@' text
      let (hostText, portText) := splitPort false hostAndPort
      let userInfo := userInfoText (userInfo?.getD [])
      if userInfo? == some [] && hostAndPort.isEmpty && !rest.isEmpty then .error .emptyHost
      else if k == .special && hostText.isEmpty then .error .emptyHost
      else hostOf k hostText >>= fun host =>
        if host.isNone && !portText.isEmpty then .error .emptyHost
        else portOf scheme portText >>= fun port =>
          if host.isNone && userInfo != "" then .error .emptyHost
          else .ok (⟨userInfo, host, port.1⟩, port.2 ++ rest) := by
  unfold parseAuthority hostOf
  rcases splitAuthority k cs with ⟨text, rest⟩
  dsimp only
  generalize (splitPort false (splitAtLast '@' text).2).2 = portText
  split
  · rfl
  split
  · rfl
  split
  all_goals
    refine bind_congr fun host => ?_
    split
    · rfl
    cases portText
    all_goals
      refine bind_congr fun port => ?_
      split <;> rfl

/-- What the parts of an authority have to be for it to be read; `last` tells whether nothing
follows it. -/
structure ReadsAuthority (scheme : String) (k : SchemeKind) (userInfo? : Option (List Char))
    (hostText portText : List Char) (last : Bool) : Prop where
  named : ¬ (userInfo? = some [] ∧ hostText = [] ∧ portText = [] ∧ last = false)
  special : k = .special → hostText ≠ []
  host : ∃ host, hostOf k hostText = .ok host ∧
    (host = none → portText = [] ∧ userInfoText (userInfo?.getD []) = "")
  port : ∃ port, portOf scheme portText = .ok port

/-- An authority is read just when its parts can be. -/
theorem exists_parseAuthority_iff :
    (∃ a, parseAuthority scheme k cs = .ok a) ↔
      let (text, rest) := splitAuthority k cs
      let (userInfo?, hostAndPort) := splitAtLast '@' text
      let (hostText, portText) := splitPort false hostAndPort
      ReadsAuthority scheme k userInfo? hostText portText rest.isEmpty := by
  have hempty (inside : Bool) (cs : List Char) :
      cs = [] ↔ (splitPort inside cs).1 = [] ∧ (splitPort inside cs).2 = [] := by
    rw [← List.append_eq_nil_iff, splitPort_fst_append_snd]
  rw [parseAuthority_eq]
  dsimp only
  constructor
  · rintro ⟨a, ha⟩
    split at ha
    · cases ha
    rename_i hnamed
    split at ha
    · cases ha
    rename_i hspecial
    obtain ⟨host, hhost, ha⟩ := exists_of_bind_eq_ok ha
    split at ha
    · cases ha
    rename_i hport
    obtain ⟨port, hparse, ha⟩ := exists_of_bind_eq_ok ha
    split at ha
    · cases ha
    rename_i huser
    refine ⟨?_, by simpa using hspecial, ⟨host, hhost, ?_⟩, port, hparse⟩
    · rintro ⟨hinfo, hhost, hport, hlast⟩
      refine hnamed ?_
      rw [hinfo, (hempty _ _).mpr ⟨hhost, hport⟩, hlast]
      rfl
    · rintro rfl
      exact ⟨by simpa using hport, by simpa using huser⟩
  · rintro ⟨hnamed, hspecial, ⟨host, hhost, hnone⟩, port, hparse⟩
    rw [if_neg, if_neg (by simpa using hspecial), hhost, hparse]
    · dsimp only [bind, Except.bind]
      cases host with
      | none => simp [hnone rfl]
      | some host => simp
    · intro hno
      simp only [Bool.and_eq_true, beq_iff_eq, List.isEmpty_iff, Bool.not_eq_true'] at hno
      obtain ⟨⟨hinfo, hnil⟩, hlast⟩ := hno
      obtain ⟨hhost, hport⟩ := (hempty false _).mp hnil
      exact hnamed ⟨hinfo, hhost, hport, hlast⟩

/-- Whether a port is read is told by its digits and the character behind them. -/
theorem parsePort_congr {cs' : List Char}
    (hdigits : cs.takeWhile Char.isDigit = cs'.takeWhile Char.isDigit)
    (hrest : (cs.dropWhile Char.isDigit).head? = (cs'.dropWhile Char.isDigit).head?)
    (h : ∃ port, parsePort scheme cs = .ok port) : ∃ port, parsePort scheme cs' = .ok port := by
  unfold parsePort at *
  simp only [List.span_eq_takeWhile_dropWhile, hdigits, hrest] at *
  split
  · simp_all
  split
  · simp_all
  split <;> exact ⟨_, rfl⟩

/-- An ending is read after a port, or not at all. -/
theorem exists_portOf_ending (he : IsEnding e) (he' : IsEnding e') (hne : cs ≠ [])
    (h : ∃ port, portOf scheme (cs ++ e) = .ok port) :
    ∃ port, portOf scheme (cs ++ e') = .ok port := by
  obtain ⟨mark, digits, rfl⟩ := List.exists_cons_of_ne_nil hne
  obtain ⟨letters, rfl, -⟩ := he
  obtain ⟨letters', rfl, -⟩ := he'
  have hdot (l : List Char) : ∀ c ∈ ('.' :: l).head?, Char.isDigit c = false := by
    rintro c ⟨⟩
    decide
  rw [List.cons_append, portOf] at *
  apply parsePort_congr ?_ ?_ h
  · rw [Text.takeWhile_append_of_head (hdot letters), Text.takeWhile_append_of_head (hdot letters')]
  · rw [Text.dropWhile_append_of_head (hdot letters), Text.dropWhile_append_of_head (hdot letters')]
    cases digits.dropWhile Char.isDigit <;> rfl

/-- Another ending is part of the host or the port as the first one was. -/
theorem ReadsAuthority.ending (he : IsEnding e) (he' : IsEnding e')
    {userInfo? : Option (List Char)} {last : Bool}
    (h : ReadsAuthority scheme k userInfo? (splitPort false (cs ++ e)).1
      (splitPort false (cs ++ e)).2 last) :
    ReadsAuthority scheme k userInfo? (splitPort false (cs ++ e')).1
      (splitPort false (cs ++ e')).2 last := by
  have hplain {e : List Char} (he : IsEnding e) : ∀ c ∈ e, c ∉ [':', '[', ']'] := by
    intro c hc hmem
    have hforbidden : ∀ c ∈ [':', '[', ']'], isForbiddenInHost c = true :=
      List.all_eq_true.mp (by decide)
    exact he.not_mem (hforbidden c hmem) hc
  rw [splitPort_append (hplain he)] at h
  rw [splitPort_append (hplain he')]
  obtain ⟨-, hspecial, ⟨host, hhost, hnone⟩, hport⟩ := h
  by_cases hempty : (splitPort false cs).2 = []
  · rw [if_pos hempty] at hhost ⊢
    obtain ⟨name, hname⟩ : ∃ name, hostOf k (cs ++ e') = .ok (some (.domain name)) := by
      rcases hostOf_ending k cs with hno | hyes
      · obtain ⟨f, hf⟩ := hno e he
        rw [hf] at hhost
        cases hhost
      · exact hyes e' he'
    have hne : cs ++ e' ≠ [] := by simp [he'.ne_nil]
    exact ⟨fun hno => hne hno.2.1, fun _ => hne, ⟨_, hname, by simp⟩, _, rfl⟩
  · rw [if_neg hempty] at hspecial hhost hnone hport ⊢
    have hne (e : List Char) : (splitPort false cs).2 ++ e ≠ [] := by simp [hempty]
    refine ⟨fun hno => hne e' hno.2.2.1, hspecial, ⟨host, hhost, fun hno => ?_⟩, ?_⟩
    · exact absurd (hnone hno).1 (hne e)
    · exact exists_portOf_ending he he' hempty hport

/-- What follows the end of an authority has no part in reading it. -/
theorem exists_parseAuthority_append {front : List Char}
    (hfront : ∃ c ∈ front, inAuthority k c = false) (rest rest' : List Char)
    (h : ∃ a, parseAuthority scheme k (front ++ rest) = .ok a) :
    ∃ a, parseAuthority scheme k (front ++ rest') = .ok a := by
  obtain ⟨c, hc, hend⟩ := hfront
  have hne : front.dropWhile (inAuthority k) ≠ [] := by
    intro hnil
    rw [List.dropWhile_eq_nil_iff.mp hnil c hc] at hend
    cases hend
  have hsplit (rest : List Char) : splitAuthority k (front ++ rest) =
      (front.takeWhile (inAuthority k), front.dropWhile (inAuthority k) ++ rest) := by
    have hshort : ¬ (front.takeWhile (inAuthority k)).length = front.length := by
      intro hlength
      have hwhole := (List.takeWhile_prefix _).eq_of_length hlength
      exact hne (List.dropWhile_eq_nil_iff.mpr (List.takeWhile_eq_self_iff.mp hwhole))
    rw [splitAuthority_eq, List.takeWhile_append, List.dropWhile_append, if_neg hshort,
      if_neg (by simpa using hne)]
  have hlast (rest : List Char) : (front.dropWhile (inAuthority k) ++ rest).isEmpty = false := by
    simp [hne]
  rw [exists_parseAuthority_iff, hsplit] at h ⊢
  dsimp only at h ⊢
  rwa [hlast] at h ⊢

/-- With another ending, an authority is still read. -/
theorem exists_parseAuthority_ending (he : IsEnding e) (he' : IsEnding e') {rest : List Char}
    (hrest : ∀ c ∈ rest.head?, inAuthority k c = false) (front : List Char)
    (h : ∃ a, parseAuthority scheme k (front ++ (e ++ rest)) = .ok a) :
    ∃ a, parseAuthority scheme k (front ++ (e' ++ rest)) = .ok a := by
  by_cases hfront : ∃ c ∈ front, inAuthority k c = false
  · exact exists_parseAuthority_append hfront _ _ h
  · have hsplit {e : List Char} (he : IsEnding e) :
        splitAuthority k (front ++ (e ++ rest)) = (front ++ e, rest) := by
      have hall : ∀ c ∈ front ++ e, inAuthority k c = true := by
        intro c hc
        rcases List.mem_append.mp hc with hc | hc
        · by_contra hend
          exact hfront ⟨c, hc, by simpa using hend⟩
        · exact he.inAuthority k c hc
      rw [splitAuthority_eq, ← List.append_assoc, Text.takeWhile_append_of_head hrest,
        Text.dropWhile_append_of_head hrest, List.takeWhile_eq_self_iff.mpr hall,
        List.dropWhile_eq_nil_iff.mpr hall, List.nil_append]
    rw [exists_parseAuthority_iff, hsplit he] at h
    rw [exists_parseAuthority_iff, hsplit he']
    dsimp only at h ⊢
    rw [splitAtLast_append (he.not_mem (by decide))] at h
    rw [splitAtLast_append (he'.not_mem (by decide))]
    exact h.ending he he'

/-- What is read as an authority, if anything, after the colon of a scheme. -/
def authorityIn? : SchemeKind → List Char → Option (List Char)
  | .special, r => some (r.dropWhile SchemeKind.special.separates)
  | .foreign, '/' :: '/' :: r => some r
  | _, _ => none

/-- Behind a foreign scheme, an authority comes after two slashes. -/
theorem mem_authorityIn?_foreign {r : List Char} :
    cs ∈ authorityIn? .foreign r ↔ r = '/' :: '/' :: cs := by
  constructor
  · intro h
    unfold authorityIn? at h
    split at h
    · cases ‹SchemeKind.foreign = .special›
    · rw [Option.some.inj h]
    · cases h
  · rintro rfl
    rfl

/-- Nothing but an authority can keep a text with a scheme from being read. -/
theorem exists_parse_iff {s : String} {r : List Char}
    (h : splitScheme? (clean s) = some (scheme, r)) (hfile : SchemeKind.of scheme ≠ .file) :
    (∃ u, parse s = .ok u) ↔
      ∀ cs ∈ authorityIn? (SchemeKind.of scheme) r,
        ∃ a, parseAuthority scheme (SchemeKind.of scheme) cs = .ok a := by
  have hafter (k : SchemeKind) (cs : List Char) :
      (∃ u, afterSlashes scheme k cs = .ok u) ↔ ∃ a, parseAuthority scheme k cs = .ok a := by
    unfold afterSlashes
    constructor
    · rintro ⟨u, hu⟩
      obtain ⟨a, ha, -⟩ := exists_of_bind_eq_ok hu
      exact ⟨a, ha⟩
    · rintro ⟨a, ha⟩
      rw [ha]
      exact ⟨_, rfl⟩
  rw [parse_eq h]
  cases hkind : SchemeKind.of scheme with
  | file => exact absurd hkind hfile
  | special => simp [authorityIn?, hafter]
  | foreign =>
    dsimp only
    unfold parseForeign
    split
    · simp [authorityIn?, hafter]
    · rename_i hno
      exact iff_of_true ⟨_, rfl⟩ fun cs hcs => absurd (mem_authorityIn?_foreign.mp hcs) (hno cs)

/-- A scheme ends before what cannot go on with it. -/
theorem exists_splitScheme?_append {front rest r : List Char}
    (hstop : (rest.dropWhile inScheme).head? ≠ some ':')
    (h : splitScheme? (front ++ rest) = some (scheme, r)) :
    ∃ more, r = more ++ rest ∧
      ∀ rest', splitScheme? (front ++ rest') = some (scheme, more ++ rest') := by
  obtain ⟨name, heq, halpha, hname, hscheme⟩ := splitScheme?_eq_some_iff.mp h
  have hcolon : ¬ inScheme ':' = true := by decide
  -- Otherwise the rest would go on with the scheme up to its colon.
  have hno (between : List Char) (hbetween : ∀ c ∈ between, inScheme c = true) :
      rest ≠ between ++ ':' :: r := by
    rintro rfl
    apply hstop
    rw [List.dropWhile_append_of_pos hbetween, List.dropWhile_cons_of_neg hcolon]
    rfl
  rcases List.append_eq_append_iff.mp heq with ⟨between, rfl, hrest⟩ | ⟨between, rfl, hr⟩
  · exact absurd hrest (hno between fun c hc => hname c (List.mem_append_right _ hc))
  · cases between with
    | nil => exact absurd hr.symm (hno [] (by simp))
    | cons c more =>
      obtain ⟨rfl, rfl⟩ := List.cons.inj hr
      refine ⟨more, rfl, fun rest' => splitScheme?_eq_some_iff.mpr ?_⟩
      exact ⟨name, by simp, halpha, hname, hscheme⟩

/-- Two texts of one scheme are both read if the authority of the second can be read as well as that
of the first. -/
theorem exists_parse_of_authority {s s' : String} {u : Url} (h : parse s = .ok u)
    (hfile : u.scheme ≠ "file") {r r' : List Char}
    (hr : splitScheme? (clean s) = some (u.scheme, r))
    (hr' : splitScheme? (clean s') = some (u.scheme, r'))
    (hauthority : ∀ k, (∀ cs ∈ authorityIn? k r, ∃ a, parseAuthority u.scheme k cs = .ok a) →
      ∀ cs ∈ authorityIn? k r', ∃ a, parseAuthority u.scheme k cs = .ok a) :
    ∃ u', parse s' = .ok u' ∧ u'.scheme = u.scheme := by
  have hkind : SchemeKind.of u.scheme ≠ .file := by
    unfold SchemeKind.of
    rw [if_neg (by simpa using hfile)]
    split <;> simp
  obtain ⟨u', hu'⟩ := (exists_parse_iff hr' hkind).mpr
    (hauthority _ ((exists_parse_iff hr hkind).mp ⟨u, h⟩))
  obtain ⟨_, hscheme⟩ := splitScheme?_of_parse hu'
  rw [hr'] at hscheme
  exact ⟨u', hu', (congrArg Prod.fst (Option.some.inj hscheme)).symm⟩

/-- A dot ends the slashes before an authority. -/
theorem mem_authorityIn?_append_dot {front rest : List Char} :
    cs ∈ authorityIn? k (front ++ '.' :: rest) ↔
      ∃ text ∈ authorityIn? k front, text ++ '.' :: rest = cs := by
  have hdot : ∀ c ∈ ('.' :: rest).head?, SchemeKind.special.separates c = false := by
    rintro c ⟨⟩
    decide
  cases k with
  | file => simp [authorityIn?]
  | special => simp [authorityIn?, Text.dropWhile_append_of_head hdot]
  | foreign =>
    simp only [mem_authorityIn?_foreign]
    constructor
    · intro h
      rcases front with _ | ⟨a, _ | ⟨b, front⟩⟩
      · simp at h
      · simp at h
      · simp only [List.cons_append, List.cons.injEq] at h
        obtain ⟨rfl, rfl, rfl⟩ := h
        exact ⟨front, rfl, rfl⟩
    · rintro ⟨text, rfl, rfl⟩
      rfl

/-- With another ending, a text is still read. -/
theorem parse_ending (he : IsEnding e) (he' : IsEnding e') {front rest : List Char}
    (hrest : ∀ c ∈ rest.head?, c = '?' ∨ c = '#') {u : Url}
    (h : parse (String.ofList (front ++ (e ++ rest))) = .ok u) (hfile : u.scheme ≠ "file") :
    ∃ u', parse (String.ofList (front ++ (e' ++ rest))) = .ok u' ∧ u'.scheme = u.scheme := by
  have hclean {e : List Char} (he : IsEnding e) : clean (String.ofList (front ++ (e ++ rest))) =
      cleanFront front ++ (e ++ cleanBack rest) :=
    clean_append he.ne_nil (fun c hc => (unmarked_of_isPlain (he.inert c hc).plain).visible) front
      rest
  have hrest' : ∀ c ∈ (cleanBack rest).head?, c = '?' ∨ c = '#' := by
    rw [head?_cleanBack]
    · exact hrest
    · intro c hc
      rcases hrest c hc with rfl | rfl <;> decide
  generalize cleanBack rest = rest' at hclean hrest'
  have hstop : ((e ++ rest').dropWhile inScheme).head? ≠ some ':' := by
    have hmark : ∀ c ∈ rest'.head?, inScheme c = false := by
      intro c hc
      rcases hrest' c hc with rfl | rfl <;> decide
    rw [Text.dropWhile_append_of_head hmark, List.dropWhile_eq_nil_iff.mpr he.inScheme]
    intro hcolon
    rcases hrest' ':' hcolon with hc | hc <;> cases hc
  obtain ⟨r, hr⟩ := splitScheme?_of_parse h
  have hfirst := hr
  rw [hclean he] at hfirst
  obtain ⟨more, rfl, hsplit⟩ := exists_splitScheme?_append hstop hfirst
  have hr' := hsplit (e' ++ rest')
  rw [← hclean he'] at hr'
  refine exists_parse_of_authority h hfile hr hr' fun k => ?_
  have hend : ∀ c ∈ rest'.head?, inAuthority k c = false := by
    intro c hc
    rcases hrest' c hc with rfl | rfl <;> simp [inAuthority]
  obtain ⟨letters, rfl, -⟩ := id he
  obtain ⟨letters', rfl, -⟩ := id he'
  intro hread cs hcs
  obtain ⟨text, htext, rfl⟩ := mem_authorityIn?_append_dot.mp hcs
  apply exists_parseAuthority_ending he he' hend text
  exact hread _ (mem_authorityIn?_append_dot.mpr ⟨text, htext, rfl⟩)

/-- A text that ends in a slash is still read with a name after it. -/
theorem parse_append_index {s : String} (hd : s.toList.getLast? = some '/') {u : Url}
    (h : parse s = .ok u) (hfile : u.scheme ≠ "file") :
    ∃ u', parse (s ++ "index.js") = .ok u' ∧ u'.scheme = u.scheme := by
  obtain ⟨front, hs⟩ := List.getLast?_eq_some_iff.mp hd
  have hclean : clean s = cleanFront front ++ ['/'] := by
    have hadded := clean_append (show ['/'] ≠ [] by simp) (visible_of_all (by decide)) front []
    rw [← String.ofList_toList (s := s), hs]
    exact hadded
  have hclean' : clean (s ++ "index.js") = cleanFront front ++ '/' :: "index.js".toList := by
    have hadded := clean_append (show '/' :: "index.js".toList ≠ [] by simp)
      (visible_of_all (by decide)) front []
    have heq : s ++ "index.js" = String.ofList (front ++ ('/' :: "index.js".toList ++ [])) := by
      rw [← String.toList_inj]
      simp [hs]
    rw [heq, hadded]
    rfl
  obtain ⟨r, hr⟩ := splitScheme?_of_parse h
  have hfirst := hr
  rw [hclean] at hfirst
  obtain ⟨more, rfl, hsplit⟩ := exists_splitScheme?_append (by decide) hfirst
  have hr' := hsplit ('/' :: "index.js".toList)
  rw [← hclean'] at hr'
  refine exists_parse_of_authority h hfile hr hr' fun k hread cs hcs => ?_
  -- Where an authority has begun before the slash, it ends there.
  have hended {front : List Char}
      (hfront : ∃ a, parseAuthority u.scheme k (front ++ ['/']) = .ok a) :
      ∃ a, parseAuthority u.scheme k (front ++ '/' :: "index.js".toList) = .ok a := by
    have hslash : ∃ c ∈ front ++ ['/'], inAuthority k c = false :=
      ⟨'/', by simp, by simp [inAuthority]⟩
    have happend := exists_parseAuthority_append hslash [] "index.js".toList (by simpa using hfront)
    simpa using happend
  cases k with
  | file => cases hcs
  | special =>
    obtain rfl := Option.some.inj hcs
    have hfirst := hread _ rfl
    rw [List.dropWhile_append] at hfirst ⊢
    split at hfirst
    · exact absurd rfl ((exists_parseAuthority_iff.mp hfirst).special rfl)
    · rename_i hne
      rw [if_neg hne]
      exact hended hfirst
  | foreign =>
    rw [mem_authorityIn?_foreign] at hcs
    rcases more with _ | ⟨a, _ | ⟨b, more⟩⟩
    · simp at hcs
    · simp only [List.cons_append, List.nil_append, List.cons.injEq] at hcs
      obtain ⟨-, -, rfl⟩ := hcs
      exact ⟨_, rfl⟩
    · simp only [List.cons_append, List.cons.injEq] at hcs
      obtain ⟨rfl, rfl, rfl⟩ := hcs
      exact hended (hread _ rfl)

end ScriptModules.Url

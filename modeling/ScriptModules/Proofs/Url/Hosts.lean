import ScriptModules.Proofs.Text.Split
import ScriptModules.Proofs.Url.Encoding
import ScriptModules.Proofs.Url.Relative

/-!
# Hosts with an ending

A dot with small letters after it stands for itself in a host and is never taken for a number. So
whether a text with such an ending is a host does not depend on the ending.
-/

namespace ScriptModules.Url

variable {cs e : List Char}

/-- A dot and small letters after it. -/
def IsEnding (e : List Char) : Prop :=
  ∃ letters, e = '.' :: letters ∧ letters ≠ [] ∧ ∀ c ∈ letters, c.isLower = true

/-- What stands for itself in a host. -/
structure Inert (c : Char) : Prop where
  plain : isPlain c = true
  fold : foldChar c = [c]
  inDomain : isForbiddenInDomain c = false
  inHost : isForbiddenInHost c = false

/-- A small letter is a letter. -/
theorem isAlphanum_of_isLower {c : Char} (h : c.isLower = true) : c.isAlphanum = true := by
  change (c.isUpper || c.isLower || c.isDigit) = true
  rw [h, Bool.or_true, Bool.true_or]

/-- What small letters have in common can be seen one by one. -/
theorem of_isLower {P : Char → Prop}
    (h : ∀ n : Fin 0x80, (Char.ofNat n).isLower = true → P (Char.ofNat n)) {c : Char}
    (hc : c.isLower = true) : P c := by
  have hlt : c.val.toNat < 0x80 := isAlphanum_lt (isAlphanum_of_isLower hc)
  have hofNat : Char.ofNat c.val.toNat = c := Char.ofNat_toNat c
  rw [← hofNat]
  exact h ⟨c.val.toNat, hlt⟩ (by rwa [hofNat])

/-- A small letter stands for itself in a host. -/
theorem inert_of_isLower {c : Char} (h : c.isLower = true) : Inert c := by
  have hall : ∀ n : Fin 0x80, (Char.ofNat n).isLower = true →
      isPlain (Char.ofNat n) = true ∧ foldChar (Char.ofNat n) = [Char.ofNat n] ∧
        isForbiddenInDomain (Char.ofNat n) = false ∧ isForbiddenInHost (Char.ofNat n) = false := by
    decide +kernel
  refine of_isLower (fun n hn => ?_) h
  obtain ⟨hplain, hfold, hdomain, hhost⟩ := hall n hn
  exact ⟨hplain, hfold, hdomain, hhost⟩

/-- There is no dot among small letters. -/
theorem dot_not_mem {letters : List Char} (h : ∀ c ∈ letters, c.isLower = true) :
    '.' ∉ letters := by
  intro hmem
  exact absurd (h '.' hmem) (by decide)

namespace IsEnding

/-- An ending stands for itself in a host. -/
theorem inert (h : IsEnding e) : ∀ c ∈ e, Inert c := by
  obtain ⟨letters, rfl, -, hletters⟩ := h
  intro c hc
  rcases List.mem_cons.mp hc with rfl | hc
  · exact ⟨by decide, by decide, by decide, by decide⟩
  · exact inert_of_isLower (hletters c hc)

/-- An ending is not empty. -/
theorem ne_nil (h : IsEnding e) : e ≠ [] := by
  obtain ⟨letters, rfl, -⟩ := h
  simp

/-- A suffix holds none of the marks of an authority. -/
theorem not_mem (h : IsEnding e) {c : Char} (hc : isForbiddenInHost c = true) : c ∉ e := by
  intro hmem
  rw [(h.inert c hmem).inHost] at hc
  cases hc

/-- What has an ending is closed by no bracket. -/
theorem getLast?_append_ne (h : IsEnding e) (cs : List Char) :
    ¬ ((cs ++ e).getLast? == some ']') = true := by
  intro hlast
  rw [beq_iff_eq, List.getLast?_append, List.getLast?_eq_some_getLast h.ne_nil] at hlast
  have hmem := List.getLast_mem h.ne_nil
  rw [Option.some.inj hlast] at hmem
  exact h.not_mem (c := ']') (by decide) hmem

/-- An ending opens no bracket. -/
theorem append_ne_cons (h : IsEnding e) (hhead : cs.head? ≠ some '[') (r : List Char) :
    cs ++ e ≠ '[' :: r := by
  obtain ⟨letters, rfl, -⟩ := h
  cases cs with
  | nil => simp
  | cons c cs =>
    rintro ⟨⟩
    exact hhead rfl

end IsEnding

/-- A percent sign without two digits after it stands for itself. -/
theorem decode_percent {cs : List Char} (h : ∀ a b r x y, cs = a :: b :: r →
    hexDigit? a = some x → hexDigit? b ≠ some y) :
    decode ('%' :: cs) = Text.utf8 ['%'] ++ decode cs := by
  rcases cs with _ | ⟨a, _ | ⟨b, r⟩⟩
  · rfl
  · rfl
  · rw [decode]
    split
    · rename_i ha hb
      exact absurd hb (h a b r _ _ rfl ha)
    · rfl

/-- The dot of an ending is no part of an encoded character before it. -/
theorem decode_append_dot (cs rest : List Char) :
    decode (cs ++ '.' :: rest) = decode cs ++ decode ('.' :: rest) := by
  have hdot : hexDigit? '.' = none := by decide
  induction cs using decode.induct with
  | case1 => rfl
  | case2 a b r x y hb ha ih =>
    rw [List.cons_append, List.cons_append, List.cons_append, decode, decode, ha, hb]
    dsimp only
    rw [ih, List.cons_append]
  | case3 a b r hno ih =>
    have hpercent (more : List Char) : decode ('%' :: a :: b :: more) =
        Text.utf8 ['%'] ++ decode (a :: b :: more) := by
      apply decode_percent
      rintro _ _ _ x y ⟨⟩ ha hb
      exact hno x y ha hb
    rw [List.cons_append, List.cons_append, List.cons_append, hpercent, hpercent,
      ← List.cons_append, ← List.cons_append, ih, List.append_assoc]
  | case4 c r hno ih =>
    have hc (more : List Char) (hmore : more = [] ∨ more = '.' :: rest) :
        decode (c :: (r ++ more)) = Text.utf8 [c] ++ decode (r ++ more) := by
      by_cases hpercent : c = '%'
      · subst hpercent
        apply decode_percent
        intro a b r' x y heq ha hb
        rcases hmore with rfl | rfl
        · exact hno a b r' rfl (by rwa [List.append_nil] at heq)
        · rcases r with _ | ⟨d, _ | ⟨d', r⟩⟩
          · obtain ⟨rfl, -⟩ := List.cons.inj heq
            rw [hdot] at ha
            cases ha
          · obtain ⟨-, heq⟩ := List.cons.inj heq
            obtain ⟨rfl, -⟩ := List.cons.inj heq
            rw [hdot] at hb
            cases hb
          · exact hno d d' r rfl rfl
      · exact decode_cons_of_ne hpercent _
    rw [List.cons_append, hc _ (Or.inr rfl), ih, ← List.append_assoc]
    have hnil := hc [] (Or.inl rfl)
    rw [List.append_nil] at hnil
    rw [hnil]

/-- An ending is decoded as its own bytes. -/
theorem decode_ending (h : IsEnding e) : decode (cs ++ e) = decode cs ++ e.map Text.asciiByte := by
  obtain ⟨letters, rfl, -⟩ := id h
  rw [decode_append_dot, decode_plain fun c hc => (h.inert c hc).plain]

/-- A domain with an ending is the domain and the ending. -/
theorem asciiDomain?_ending (h : IsEnding e) (bytes : List UInt8) :
    asciiDomain? (bytes ++ e.map Text.asciiByte) = (asciiDomain? bytes).map (· ++ e) := by
  have hascii : ∀ c ∈ e, c.val.toNat < 0x80 := fun c hc =>
    (unmarked_of_isPlain (h.inert c hc).plain).ascii
  have hdecode : Text.decode? (bytes ++ e.map Text.asciiByte) =
      (Text.decode? bytes).map (· ++ String.ofList e) := by
    have hself : Text.decode? (e.map Text.asciiByte) = some (String.ofList e) :=
      Text.decode?_eq_some_iff.mpr (by rw [String.toList_ofList, Text.utf8_ascii hascii])
    obtain ⟨letters, rfl, -⟩ := h
    rw [List.map_cons] at hself ⊢
    rw [Text.decode?_append (Text.asciiByte_lt (hascii '.' List.mem_cons_self)), hself]
    cases Text.decode? bytes <;> rfl
  have hfold : e.flatMap foldChar = e :=
    calc e.flatMap foldChar = e.flatMap fun c => [c] :=
          List.flatMap_congr fun c hc => (h.inert c hc).fold
      _ = e := by simp
  have hallowed : e.any isForbiddenInDomain = false := by
    rw [List.any_eq_false]
    intro c hc
    simp [(h.inert c hc).inDomain]
  have hlabels (cs : List Char) : ['.'].intercalate ((Text.splitAt '.' (cs ++ e)).map asciiLabel) =
      ['.'].intercalate ((Text.splitAt '.' cs).map asciiLabel) ++ e := by
    obtain ⟨letters, rfl, -, hletters⟩ := h
    have hdot : '.' ∉ letters := dot_not_mem hletters
    have hlabel : asciiLabel letters = letters := by
      rw [asciiLabel, if_pos]
      rw [List.all_eq_true]
      exact fun c hc => decide_eq_true (hascii c (List.mem_cons_of_mem _ hc))
    have hne : (Text.splitAt '.' cs).map asciiLabel ≠ [] := by
      simpa using Text.splitAt_ne_nil '.' cs
    rw [Text.splitAt_append_mark, Text.splitAt_of_not_mem hdot, List.map_append, List.map_singleton,
      hlabel]
    exact Text.intercalate_concat ['.'] letters hne
  rw [asciiDomain?, asciiDomain?, hdecode]
  cases Text.decode? bytes with
  | none => rfl
  | some text =>
    simp only [Option.map_some, Option.bind_eq_bind, Option.bind_some, String.toList_append,
      String.toList_ofList, List.flatMap_append, hfold, List.any_append, hallowed, Bool.or_false,
      hlabels]
    cases (text.toList.flatMap foldChar).any isForbiddenInDomain <;> rfl

/-- A small letter is no digit of a decimal number. -/
theorem ten_le_of_isLower {c : Char} (h : c.isLower = true) :
    c ≠ '0' ∧ c.isDigit = false ∧ ∀ d ∈ hexDigit? c, 10 ≤ d := by
  have hall : ∀ n : Fin 0x80, (Char.ofNat n).isLower = true → Char.ofNat n ≠ '0' ∧
      (Char.ofNat n).isDigit = false ∧ ∀ d ∈ hexDigit? (Char.ofNat n), 10 ≤ d := by
    decide +kernel
  exact of_isLower (P := fun c => c ≠ '0' ∧ c.isDigit = false ∧ ∀ d ∈ hexDigit? c, 10 ≤ d) hall h

/-- Small letters are no number. -/
theorem ipv4Number?_of_isLower {letters : List Char} (h : ∀ c ∈ letters, c.isLower = true) :
    ipv4Number? letters = none := by
  cases letters with
  | nil => rfl
  | cons c rest =>
    obtain ⟨hzero, -, hlarge⟩ := ten_le_of_isLower (h c List.mem_cons_self)
    have hstop (cs : List Char) : cs.foldl (fun n? c => do
        let n ← n?
        let d ← hexDigit? c
        if d < 10 then some (n * 10 + d) else none) none = none := by
      induction cs with
      | nil => rfl
      | cons d more ih => exact ih
    unfold ipv4Number?
    split
    case h_6 =>
      have hfirst : (do
          let n ← some 0
          let d ← hexDigit? c
          if d < 10 then some (n * 10 + d) else none) = none := by
        cases hd : hexDigit? c with
        | none => rfl
        | some d => simpa using hlarge d hd
      rw [numberIn?, List.foldl_cons, hfirst]
      exact hstop rest
    all_goals
      rename_i heq
      cases heq
    all_goals exact absurd rfl hzero

/-- A domain with an ending does not end in a number. -/
theorem endsInNumber_ending (h : IsEnding e) (domain : List Char) :
    endsInNumber (domain ++ e) = false := by
  obtain ⟨letters, rfl, hne, hletters⟩ := h
  have hdot : '.' ∉ letters := dot_not_mem hletters
  have hlabels : (Text.splitAt '.' (domain ++ '.' :: letters)).reverse =
      letters :: (Text.splitAt '.' domain).reverse := by
    rw [Text.splitAt_append_mark, Text.splitAt_of_not_mem hdot, List.reverse_append]
    rfl
  rw [endsInNumber, hlabels]
  cases letters with
  | nil => exact absurd rfl hne
  | cons c rest =>
    have hdigit : c.isDigit = false := (ten_le_of_isLower (hletters c List.mem_cons_self)).2.1
    simp [ipv4Number?_of_isLower hletters, hdigit]

/-- With an ending, a host of a special scheme is a domain. -/
theorem parseHost_ending (h : IsEnding e) (cs : List Char) :
    parseHost (cs ++ e) =
      if cs.head? = some '[' then .error .invalidIpv6
      else match asciiDomain? (decode cs) with
        | none => .error .invalidDomain
        | some domain => .ok (.domain (String.ofList (domain ++ e))) := by
  split
  · rename_i hhead
    obtain ⟨r, rfl⟩ := List.head?_eq_some_iff.mp hhead
    rw [List.cons_append, parseHost, if_neg (h.getLast?_append_ne r)]
  · rename_i hhead
    rw [parseHost.eq_2 _ (h.append_ne_cons hhead), decode_ending h, asciiDomain?_ending h]
    cases asciiDomain? (decode cs) with
    | none => rfl
    | some domain => simp [endsInNumber_ending h, h.ne_nil]

/-- A foreign host may be any text without brackets and forbidden characters before the ending. -/
theorem parseForeignHost_ending (h : IsEnding e) (cs : List Char) :
    parseForeignHost (cs ++ e) =
      if cs.head? = some '[' then .error .invalidIpv6
      else if cs.any isForbiddenInHost then .error .invalidDomainCharacter
      else .ok (some (.domain (String.ofList (encode isControl (cs ++ e))))) := by
  split
  · rename_i hhead
    obtain ⟨r, rfl⟩ := List.head?_eq_some_iff.mp hhead
    rw [List.cons_append, parseForeignHost, if_neg (h.getLast?_append_ne r)]
  · rename_i hhead
    have hallowed : e.any isForbiddenInHost = false := by
      rw [List.any_eq_false]
      intro c hc
      simp [(h.inert c hc).inHost]
    rw [parseForeignHost.eq_3 _ (by simp [h.ne_nil]) (h.append_ne_cons hhead), List.any_append,
      hallowed, Bool.or_false]

/-- The host of a scheme of some kind. -/
def hostOf (k : SchemeKind) (cs : List Char) : Except Fault (Option Host) :=
  if k == .foreign then parseForeignHost cs else (parseHost cs).map some

/-- A text is a host with every ending, or with none. -/
theorem hostOf_ending (k : SchemeKind) (cs : List Char) :
    (∀ e, IsEnding e → ∃ f, hostOf k (cs ++ e) = .error f) ∨
      ∀ e, IsEnding e → ∃ name, hostOf k (cs ++ e) = .ok (some (.domain name)) := by
  unfold hostOf
  by_cases hhead : cs.head? = some '['
  · left
    intro e h
    rw [parseForeignHost_ending h, parseHost_ending h, if_pos hhead, if_pos hhead]
    split <;> exact ⟨_, rfl⟩
  · split
    · cases hforbidden : cs.any isForbiddenInHost with
      | true =>
        left
        intro e h
        rw [parseForeignHost_ending h, if_neg hhead, hforbidden]
        exact ⟨_, rfl⟩
      | false =>
        right
        intro e h
        rw [parseForeignHost_ending h, if_neg hhead, hforbidden]
        exact ⟨_, rfl⟩
    · cases hdomain : asciiDomain? (decode cs) with
      | none =>
        left
        intro e h
        rw [parseHost_ending h, if_neg hhead, hdomain]
        exact ⟨_, rfl⟩
      | some domain =>
        right
        intro e h
        rw [parseHost_ending h, if_neg hhead, hdomain]
        exact ⟨_, rfl⟩

end ScriptModules.Url

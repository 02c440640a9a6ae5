import ScriptModules.Project.Glob
import ScriptModules.Proofs.Text.Utf8

/-!
# Patterns of directories

A text without anything special is a pattern that matches it. With two stars after a slash, it also
matches whatever goes on from it after a slash.
-/

namespace ScriptModules.Project.Glob

open Text (utf8)

/-- A character that stands for more than one character or opens or closes something. -/
def isSpecial (c : Char) : Bool := c ∈ ['*', '[', '\x7b', '\x7d', '\\']

/-- The token of a character that is not special. -/
def tokenOf (c : Char) : Token := if c == '?' then .any else .literal c

variable {cs : List Char}

/-- Outside of braces, a character that is not special adds its token. -/
theorem readTokens_cons {c : Char} (hc : isSpecial c = false) (fuel : Nat) (before : Option Char)
    (tokens : List Token) (rest : List Char) :
    readTokens (fuel + 1) before ⟨[tokens], []⟩ (c :: rest) =
      readTokens fuel (some c) ⟨[tokenOf c :: tokens], []⟩ rest := by
  have hne : ∀ d ∈ ['*', '[', '\x7b', '\x7d', '\\'], (c == d) = false := by
    intro d hd
    rw [beq_eq_false_iff_ne]
    rintro rfl
    rw [isSpecial, decide_eq_false_iff_not] at hc
    exact hc hd
  rw [readTokens.eq_def]
  dsimp only
  by_cases hany : (c == '?') = true
  · rw [if_pos hany, tokenOf, if_pos hany]
    rfl
  · rw [if_neg hany, hne '*' (by simp), hne '[' (by simp), hne '\x7b' (by simp),
      hne '\x7d' (by simp), hne '\\' (by simp), tokenOf, if_neg hany]
    simp only [Bool.false_eq_true, ite_false]
    split <;> rfl

/-- A text without special characters adds its tokens. -/
theorem readTokens_append (hcs : ∀ c ∈ cs, isSpecial c = false) (fuel : Nat)
    (before : Option Char) (tokens : List Token) (rest : List Char) :
    readTokens (cs.length + fuel) before ⟨[tokens], []⟩ (cs ++ rest) =
      readTokens fuel (cs.getLast?.or before) ⟨[(cs.map tokenOf).reverse ++ tokens], []⟩ rest := by
  induction cs generalizing before tokens with
  | nil => rw [List.length_nil, Nat.zero_add]; rfl
  | cons c more ih =>
    rw [List.length_cons, Nat.add_right_comm, List.cons_append,
      readTokens_cons (hcs c List.mem_cons_self),
      ih fun d hd => hcs d (List.mem_cons_of_mem _ hd)]
    congr 1
    · cases hlast : more.getLast? with
      | none => rw [List.getLast?_eq_none_iff.mp hlast]; rfl
      | some d => rw [List.getLast?_cons, hlast]; rfl
    · simp

/-- The end that covers a directory is read as anything in any directory. -/
theorem readTokens_covering (before : Option Char) (tokens : List Token) :
    readTokens 6 before ⟨[tokens], []⟩ "/**/*".toList =
      .ok ⟨[.many :: .directories :: tokens], []⟩ := rfl

/-- The end that covers what is left out is read as everything below. -/
theorem readTokens_removing (before : Option Char) (tokens : List Token) :
    readTokens 4 before ⟨[tokens], []⟩ "/**".toList = .ok ⟨[.everythingBelow :: tokens], []⟩ := rfl

/-- The pattern of a directory for what is included. -/
theorem parse_covering {text : String} (h : ∀ c ∈ text.toList, isSpecial c = false) :
    parse (text ++ "/**/*") = .ok (text.toList.map tokenOf ++ [.directories, .many]) := by
  have hlength : (text ++ "/**/*").toList.length + 1 = text.toList.length + 6 := by simp
  unfold parse
  dsimp only
  rw [hlength, String.toList_append, readTokens_append h, readTokens_covering, List.append_nil]
  change Except.ok _ = _
  rw [List.reverse_cons, List.reverse_cons, List.reverse_reverse, List.append_assoc]
  rfl

/-- The pattern of a directory for what is excluded. -/
theorem parse_removing {text : String} (h : ∀ c ∈ text.toList, isSpecial c = false) :
    parse (text ++ "/**") = .ok (text.toList.map tokenOf ++ [.everythingBelow]) := by
  have hlength : (text ++ "/**").toList.length + 1 = text.toList.length + 4 := by simp
  unfold parse
  dsimp only
  rw [hlength, String.toList_append, readTokens_append h, readTokens_removing, List.append_nil]
  change Except.ok _ = _
  rw [List.reverse_cons, List.reverse_reverse]

/-- Any bytes end in a name after some directories. -/
theorem afterName_or_afterSlash (bytes : List UInt8) :
    (afterName List.isEmpty bytes || afterSlash (afterName List.isEmpty) bytes) = true := by
  induction bytes with
  | nil => rfl
  | cons b rest ih =>
    rw [afterName, afterSlash]
    rw [Bool.or_eq_true] at ih
    rcases ih with hname | hslash
    · cases hb : b == slash <;> simp [hname, hb, bne]
    · simp [hslash]

/-- Anything is an end for the rest of a path. -/
theorem afterAny_isEmpty (bytes : List UInt8) : afterAny List.isEmpty bytes = true := by
  induction bytes with
  | nil => rfl
  | cons b rest ih => rw [afterAny, ih, Bool.or_true]

/-- A character is matched by its token. -/
theorem accepts_tokenOf (c : Char) (accept : List UInt8 → Bool) (bytes : List UInt8) :
    (tokenOf c).accepts accept (utf8 [c] ++ bytes) = accept bytes := by
  unfold tokenOf
  split
  · rename_i hc
    obtain rfl := beq_iff_eq.mp hc
    rw [Text.utf8_singleton_ascii (by decide)]
    rfl
  · rw [Token.accepts, afterBytes, List.isPrefixOf_iff_prefix.mpr (List.prefix_append _ _),
      Bool.true_and, List.drop_left]

/-- A text is matched by its tokens. -/
theorem acceptsAll_append (cs : List Char) (tokens : List Token) (accept : List UInt8 → Bool)
    (bytes : List UInt8) :
    acceptsAll (cs.map tokenOf ++ tokens) accept (utf8 cs ++ bytes) =
      acceptsAll tokens accept bytes := by
  induction cs with
  | nil => rfl
  | cons c more ih =>
    have hutf8 : utf8 (c :: more) = utf8 [c] ++ utf8 more := by
      rw [utf8, utf8, utf8, List.flatMap_cons, List.flatMap_singleton]
    rw [List.map_cons, List.cons_append, acceptsAll, hutf8, List.append_assoc, accepts_tokenOf, ih]

/-- A pattern matches a path that its tokens accept. -/
theorem isMatch_of_acceptsAll {tokens : List Token} {path : String}
    (h : acceptsAll tokens List.isEmpty (utf8 path.toList) = true) :
    isMatch tokens path = true := by
  unfold isMatch
  split
  · rfl
  · exact h

/-- A name after any directories is any path. -/
theorem isMatch_everything (path : String) : isMatch [.leadingDirectories, .many] path = true := by
  refine isMatch_of_acceptsAll ?_
  simp only [acceptsAll, Token.accepts]
  exact afterName_or_afterSlash _

/-- An end that makes a pattern of a directory match everything below the directory. -/
def Covers (covering : String) : Prop :=
  ∀ text : String, (∀ c ∈ text.toList, isSpecial c = false) →
    ∃ tokens, parse (text ++ covering) = .ok tokens ∧
      ∀ more, isMatch tokens (text ++ "/" ++ more) = true

/-- The characters of a name accept the name, and the rest goes on with the slash. -/
theorem acceptsAll_text (text more : String) (tokens : List Token) :
    acceptsAll (text.toList.map tokenOf ++ tokens) List.isEmpty
        (utf8 (text ++ "/" ++ more).toList) =
      acceptsAll tokens List.isEmpty (slash :: utf8 more.toList) := by
  have hutf8 : utf8 (text ++ "/" ++ more).toList =
      utf8 text.toList ++ (slash :: utf8 more.toList) := by
    have hslash : utf8 "/".toList = [slash] := Text.utf8_singleton_ascii (by decide)
    rw [String.toList_append, String.toList_append, utf8, List.flatMap_append,
      List.flatMap_append, ← utf8, ← utf8, ← utf8, hslash, List.append_assoc]
    rfl
  rw [hutf8, acceptsAll_append]

/-- The end that is put behind patterns of what is included covers the directory. -/
theorem covers_included : Covers "/**/*" := by
  intro text htext
  refine ⟨_, parse_covering htext, fun more => isMatch_of_acceptsAll ?_⟩
  rw [acceptsAll_text]
  simp only [acceptsAll, Token.accepts, beq_self_eq_true, Bool.true_and]
  exact afterName_or_afterSlash _

/-- The end that is put behind patterns of what is left out covers the directory. -/
theorem covers_excluded : Covers "/**" := by
  intro text htext
  refine ⟨_, parse_removing htext, fun more => isMatch_of_acceptsAll ?_⟩
  rw [acceptsAll_text]
  simp only [acceptsAll, Token.accepts, beq_self_eq_true, Bool.true_and]
  exact afterAny_isEmpty _

end ScriptModules.Project.Glob

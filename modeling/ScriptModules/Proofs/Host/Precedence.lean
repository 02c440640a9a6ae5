import Mathlib.Data.List.Basic
import ScriptModules.Host.Capabilities
import ScriptModules.Text.Split

/-!
# Capabilities along the precedence of versions

Versions are ordered by their precedence: by their three numbers, then by their pre-releases, which
come before the release itself. A build is no part of that. The capabilities that start at a version
are those of all releases from there on, but of no pre-release.
-/

namespace ScriptModules.Host

namespace Version

/-- One identifier of a pre-release. -/
inductive Identifier where
  | number (n : Nat)
  | word (s : String)
  deriving DecidableEq, Repr

/-- Digits alone stand for a number. -/
def Identifier.ofChars (cs : List Char) : Identifier :=
  if cs.all Char.isDigit then .number (cs.foldl (fun n c => 10 * n + (c.toNat - '0'.toNat)) 0)
  else .word (String.ofList cs)

/-- Numbers are in the order of their values and come before words, which are in the order of their
characters. -/
def Identifier.order : Identifier → Identifier → Ordering
  | .number m, .number n => compare m n
  | .number _, .word _ => .lt
  | .word _, .number _ => .gt
  | .word s, .word t => compare s t

/-- The identifiers of a pre-release. A release has none. -/
def identifiers (v : Version) : List Identifier :=
  if v.pre == "" then [] else (Text.splitAt '.' v.pre.toList).map Identifier.ofChars

/-- A release comes after its pre-releases, and these are in the order of their identifiers. Where
one has the identifiers of the other and more, it is the later one. -/
def orderOfIdentifiers : List Identifier → List Identifier → Ordering
  | [], [] => .eq
  | [], _ :: _ => .gt
  | _ :: _, [] => .lt
  | i :: is, j :: js => List.compareLex Identifier.order (i :: is) (j :: js)

/-- The order of versions by precedence. -/
def precedence : Version → Version → Ordering :=
  compareLex (compareOn major) (compareLex (compareOn minor) (compareLex (compareOn patch)
    fun v w => orderOfIdentifiers v.identifiers w.identifiers))

/-- A version is not above another in precedence. -/
instance : LE Version := ⟨fun v w => (precedence v w).isLE = true⟩

instance (v w : Version) : Decidable (v ≤ w) :=
  inferInstanceAs (Decidable ((precedence v w).isLE = true))

instance : Std.OrientedCmp Identifier.order where
  eq_swap {i j} := by
    cases i <;> cases j <;> simp only [Identifier.order, Ordering.swap] <;>
      exact Std.OrientedOrd.eq_swap

instance : Std.TransCmp Identifier.order where
  isLE_trans {i j k} hij hjk := by
    cases i <;> cases j <;> cases k <;> simp only [Identifier.order] at *
    all_goals first | exact Std.TransOrd.isLE_trans hij hjk | contradiction | rfl

instance : Std.OrientedCmp orderOfIdentifiers where
  eq_swap {is js} := by
    cases is <;> cases js <;> simp only [orderOfIdentifiers, Ordering.swap]
    exact Std.OrientedCmp.eq_swap

instance : Std.TransCmp orderOfIdentifiers where
  isLE_trans {is js ks} hij hjk := by
    cases is <;> cases js <;> cases ks <;> simp only [orderOfIdentifiers] at *
    all_goals first | exact Std.TransCmp.isLE_trans hij hjk | contradiction | rfl

instance : Std.TransCmp precedence := by
  have : Std.TransCmp fun v w : Version => orderOfIdentifiers v.identifiers w.identifiers :=
    { eq_swap := Std.OrientedCmp.eq_swap, isLE_trans := Std.TransCmp.isLE_trans }
  unfold precedence
  infer_instance

/-- A version is as late as itself. -/
protected theorem le_refl (v : Version) : v ≤ v := Std.ReflCmp.isLE_rfl

/-- Of three versions in order, the last is as late as the first. -/
protected theorem le_trans {u v w : Version} (h : u ≤ v) (h' : v ≤ w) : u ≤ w :=
  Std.TransCmp.isLE_trans h h'

/-- A version that is no pre-release. -/
def IsRelease (v : Version) : Prop := v.pre = ""

instance (v : Version) : Decidable v.IsRelease := inferInstanceAs (Decidable (_ = _))

/-- The release of three numbers. -/
def release (major minor patch : Nat) : Version := ⟨major, minor, patch, "", ""⟩

/-- Three numbers are reached in the order of their weight, whatever comes after them. -/
theorem atLeast_iff {v : Version} {major minor patch : Nat} :
    v.atLeast major minor patch = true ↔ major < v.major ∨
      major = v.major ∧ (minor < v.minor ∨ minor = v.minor ∧ patch ≤ v.patch) := by
  simp only [atLeast, Bool.or_eq_true, Bool.and_eq_true, decide_eq_true_eq, beq_iff_eq]
  omega

/-- A release is reached by later numbers, or by the same ones if nothing comes before the release.
-/
theorem release_le_iff {v : Version} {major minor patch : Nat} :
    release major minor patch ≤ v ↔ major < v.major ∨ major = v.major ∧
      (minor < v.minor ∨ minor = v.minor ∧ (patch < v.patch ∨ patch = v.patch ∧
        (orderOfIdentifiers [] v.identifiers).isLE = true)) := by
  change (precedence _ _).isLE = true ↔ _
  simp only [precedence, compareLex, compareOn, Ordering.isLE_then_iff_or, Nat.compare_eq_lt,
    Nat.compare_eq_eq]
  rfl

/-- A release is from a version on when its numbers are. -/
theorem IsRelease.release_le_iff {v : Version} (h : v.IsRelease) {major minor patch : Nat} :
    release major minor patch ≤ v ↔ v.atLeast major minor patch = true := by
  have hidentifiers : v.identifiers = [] := if_pos (beq_iff_eq.mpr h)
  rw [Version.release_le_iff, atLeast_iff, hidentifiers, Nat.le_iff_lt_or_eq]
  simp [orderOfIdentifiers]

/-- A release is below another version just when it is not at or above it. -/
theorem IsRelease.not_atLeast_iff {v : Version} (h : v.IsRelease) {major minor patch : Nat} :
    (!v.atLeast major minor patch) = true ↔ ¬ release major minor patch ≤ v := by
  rw [h.release_le_iff, Bool.not_eq_true', Bool.not_eq_true]

end Version

namespace Capabilities

open Version (release IsRelease)

variable {v w : Version}

/-- A release and from a version on. -/
theorem released_and_atLeast_iff {major minor patch : Nat} :
    (v.pre == "" && v.atLeast major minor patch) = true ↔
      v.IsRelease ∧ release major minor patch ≤ v := by
  rw [Bool.and_eq_true, beq_iff_eq]
  exact and_congr_right fun h => (IsRelease.release_le_iff h).symm

/-- The hook is there for the releases from 16.12.0 on. -/
theorem loadHook_iff : (ofVersion v).loadHook = true ↔ v.IsRelease ∧ release 16 12 0 ≤ v :=
  released_and_atLeast_iff

/-- Maps are inlined for the releases from 16.6.0 on. -/
theorem inlineSourceMaps_iff :
    (ofVersion v).inlineSourceMaps = true ↔ v.IsRelease ∧ release 16 6 0 ≤ v :=
  released_and_atLeast_iff

/-- The prefix is known to the releases from 14.13.1 on, and to those of 12 from 12.20.0 on. -/
theorem nodePrefix_iff : (ofVersion v).nodePrefix = true ↔ v.IsRelease ∧
    (release 14 13 1 ≤ v ∨ release 12 20 0 ≤ v ∧ ¬ release 13 0 0 ≤ v) := by
  have h : (ofVersion v).nodePrefix = (v.pre == "" && v.atLeast 14 13 1 ||
    (v.pre == "" && v.atLeast 12 20 0 && !v.atLeast 13 0 0)) := rfl
  rw [h, Bool.or_eq_true, Bool.and_eq_true (_ && _), released_and_atLeast_iff,
    released_and_atLeast_iff]
  constructor
  · rintro (⟨hv, hle⟩ | ⟨⟨hv, hle⟩, hlt⟩)
    · exact ⟨hv, Or.inl hle⟩
    · exact ⟨hv, Or.inr ⟨hle, hv.not_atLeast_iff.mp hlt⟩⟩
  · rintro ⟨hv, hle | ⟨hle, hlt⟩⟩
    · exact Or.inl ⟨hv, hle⟩
    · exact Or.inr ⟨⟨hv, hle⟩, hv.not_atLeast_iff.mpr hlt⟩

/-- A version from 16.12.0 on has all capabilities if it is a release, and none else. -/
theorem ofVersion_of_le (h : release 16 12 0 ≤ v) :
    ofVersion v = ⟨v.IsRelease, v.IsRelease, v.IsRelease⟩ := by
  have hprefix : release 14 13 1 ≤ v := Version.le_trans (by decide) h
  have hmaps : release 16 6 0 ≤ v := Version.le_trans (by decide) h
  have eq_decide {b : Bool} {p : Prop} [Decidable p] (hb : b = true ↔ p) : b = decide p := by
    rw [Bool.eq_iff_iff, decide_eq_true_iff, hb]
  have hfields : (ofVersion v).nodePrefix = decide v.IsRelease ∧
      (ofVersion v).loadHook = decide v.IsRelease ∧
      (ofVersion v).inlineSourceMaps = decide v.IsRelease :=
    ⟨eq_decide (nodePrefix_iff.trans (and_iff_left (Or.inl hprefix))),
      eq_decide (loadHook_iff.trans (and_iff_left h)),
      eq_decide (inlineSourceMaps_iff.trans (and_iff_left hmaps))⟩
  revert hfields
  cases ofVersion v
  rintro ⟨rfl, rfl, rfl⟩
  rfl

/-- From one version to a later one in precedence, just the releases keep capabilities. The one for
names of built-in modules is kept from 14.13.1 on only, as version 13 does without it. -/
theorem ofVersion_iff_isRelease_of_le (h : v ≤ w) :
    ((ofVersion v).loadHook = true → ((ofVersion w).loadHook = true ↔ w.IsRelease)) ∧
    ((ofVersion v).inlineSourceMaps = true →
      ((ofVersion w).inlineSourceMaps = true ↔ w.IsRelease)) ∧
    (release 14 13 1 ≤ v → ((ofVersion w).nodePrefix = true ↔ w.IsRelease)) ∧
    (release 16 12 0 ≤ w → ofVersion w = ⟨w.IsRelease, w.IsRelease, w.IsRelease⟩) := by
  refine ⟨fun hv => ?_, fun hv => ?_, fun hle => ?_, ofVersion_of_le⟩
  · exact loadHook_iff.trans (and_iff_left (Version.le_trans (loadHook_iff.mp hv).2 h))
  · exact inlineSourceMaps_iff.trans
      (and_iff_left (Version.le_trans (inlineSourceMaps_iff.mp hv).2 h))
  · exact nodePrefix_iff.trans (and_iff_left (Or.inl (Version.le_trans hle h)))

/-- The first candidate of version 17. -/
def candidate : Version := ⟨17, 0, 0, "rc.1", ""⟩

/-- The candidate comes after the release that brought the hook. -/
theorem release_le_candidate : release 16 12 0 ≤ candidate := by decide +kernel

/-- A candidate of a later version has none of the capabilities that an earlier release has. -/
theorem ofVersion_candidate_of_ofVersion_release :
    release 16 12 0 ≤ candidate ∧ ofVersion (release 16 12 0) = ⟨true, true, true⟩ ∧
      ofVersion candidate = ⟨false, false, false⟩ := by
  obtain ⟨-, -, -, hall⟩ := ofVersion_iff_isRelease_of_le release_le_candidate
  have hearlier := (ofVersion_iff_isRelease_of_le (Version.le_refl (release 16 12 0))).2.2.2
  exact ⟨release_le_candidate, hearlier (by decide), hall release_le_candidate⟩

/-- The candidate has none of the capabilities of version 16.12.0. -/
theorem not_forall_of_parse_le :
    ¬ (∀ s t v w, Version.parse s = .ok v → Version.parse t = .ok w → v ≤ w →
        (ofVersion v).loadHook = true → (ofVersion w).loadHook = true) ∧
    ¬ (∀ s t v w, Version.parse s = .ok v → Version.parse t = .ok w → v ≤ w →
        (ofVersion v).inlineSourceMaps = true → (ofVersion w).inlineSourceMaps = true) ∧
    ¬ (∀ s t v w, Version.parse s = .ok v → Version.parse t = .ok w → v ≤ w →
        release 14 13 1 ≤ v → (ofVersion v).nodePrefix = true → (ofVersion w).nodePrefix = true) ∧
    ¬ ∀ t w, Version.parse t = .ok w → release 16 12 0 ≤ w → ofVersion w = ⟨true, true, true⟩ := by
  have hrelease : Version.parse "16.12.0" = .ok (release 16 12 0) := by decide +kernel
  have hcandidate : Version.parse "17.0.0-rc.1" = .ok candidate := by decide +kernel
  refine ⟨fun h => ?_, fun h => ?_, fun h => ?_, fun h => ?_⟩
  · have := h _ _ _ _ hrelease hcandidate release_le_candidate rfl
    contradiction
  · have := h _ _ _ _ hrelease hcandidate release_le_candidate rfl
    contradiction
  · have := h _ _ _ _ hrelease hcandidate release_le_candidate (by decide) rfl
    contradiction
  · have := h _ _ hcandidate release_le_candidate
    contradiction

end Capabilities

end ScriptModules.Host

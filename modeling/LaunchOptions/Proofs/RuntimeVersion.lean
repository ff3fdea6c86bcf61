import LaunchOptions.Proofs.Numeral
import LaunchOptions.RuntimeVersion
import Mathlib.Data.List.TakeWhile

/-!
# Versions of a runtime

A version text that is a numeral alone names that version, and no version text names one above the
largest.
-/

namespace LaunchOptions

open Text (IsDigits Numeral isDigit isWhiteSpace)

/-- A digit is no white space. -/
theorem Text.not_isWhiteSpace_of_isDigit {c : Char} (h : isDigit c) : isWhiteSpace c = false := by
  simp only [isDigit, Bool.and_eq_true, decide_eq_true_eq, Char.reduceToNat] at h
  simp only [isWhiteSpace, Bool.or_eq_false_iff, Bool.and_eq_false_iff, decide_eq_false_iff_not,
    beq_eq_false_iff_ne]
  omega

/-- A text without white space at its ends is not trimmed. -/
theorem Text.trim_eq_self {t : Text} (h : ∀ c ∈ t, isWhiteSpace c = false) : t.trim = t := by
  have hdrop {u : Text} (hu : ∀ c ∈ u, isWhiteSpace c = false) : u.dropWhile isWhiteSpace = u := by
    cases u with
    | nil => rfl
    | cons c rest => rw [List.dropWhile_cons_of_neg (by simp [hu c])]
  rw [trim, hdrop h, hdrop (fun c hc ↦ h c (List.mem_reverse.mp hc)), List.reverse_reverse]

namespace RuntimeVersion

/-- Digits alone are those of the major version. -/
theorem majorDigits_of_isDigits {digits : Text} (h : IsDigits digits) :
    majorDigits digits = digits := by
  obtain ⟨c, rest, rfl⟩ := List.exists_cons_of_ne_nil h.1
  have hc : isDigit c := h.2 c List.mem_cons_self
  have hdrop : (c :: rest).dropWhile (fun c ↦ !isDigit c) = c :: rest :=
    List.dropWhile_cons_of_neg (by simp [hc])
  have hmark : dropLegacyMark (c :: rest) = c :: rest := by
    unfold dropLegacyMark
    split
    · next heq =>
      have hdot := h.2 '.' (by simp [heq])
      exact absurd hdot (by decide)
    · rfl
  rw [majorDigits, hdrop, hmark]
  exact List.takeWhile_eq_self_iff.mpr h.2

/-- A numeral names its number, if that is not too large for a version. -/
theorem major_of_numeral {digits : Text} {n : Nat} (h : Numeral digits n) (hn : n ≤ 4294967295) :
    major digits = .ok n := by
  have hspace : ∀ c ∈ digits, isWhiteSpace c = false :=
    fun c hc ↦ Text.not_isWhiteSpace_of_isDigit (h.isDigits.2 c hc)
  have hempty : digits.isEmpty = false := by simpa using h.isDigits.1
  have hmax : ¬ maxMajor < n := Nat.not_lt.mpr hn
  simp [major, Text.trim_eq_self hspace, majorDigits_of_isDigits h.isDigits, h.decimalValue_eq,
    hempty, hmax]

/-- No version text names a version that is too large. -/
theorem le_of_major {version : Text} {n : Nat} (h : major version = .ok n) : n ≤ 4294967295 := by
  unfold major at h
  dsimp only at h
  split at h
  · cases h
    decide
  · split at h
    · cases h
    · next hvalid =>
      cases h
      rw [Bool.or_eq_true, not_or, decide_eq_true_eq, Nat.not_lt] at hvalid
      exact hvalid.2

/-- The versions that version texts name. -/
theorem exists_major_iff {n : Nat} :
    (∃ version, major version = .ok n) ↔ n ≤ 4294967295 := by
  constructor
  · rintro ⟨version, h⟩
    exact le_of_major h
  · intro hn
    exact ⟨Text.ofNat n, major_of_numeral (Text.numeral_ofNat n) hn⟩

end RuntimeVersion

end LaunchOptions

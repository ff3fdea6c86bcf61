import LaunchOptions.Proofs.LineGrammar
import LaunchOptions.Proofs.RuntimeVersion

/-!
# Open ranges

A gate without an upper bound lets the versions from its lower bound on through, up to the largest
number that a bound can have. A runtime can have a version above that number, and such a version
gets no option from behind an open gate.
-/

namespace LaunchOptions.OptionLine

open RuntimeVersion (major)

/-- A line with an option behind an open gate. -/
def openLine (lower : Nat) (option : Text) : Text := Text.ofNat lower ++ '-' :: ':' :: option

variable {lower version : Nat} {option : Text}

private theorem isGated_openLine (hlower : lower ≤ 2147483647) (hoption : IsOptionText option) :
    IsGated (openLine lower option) ⟨lower, 2147483647⟩ option := by
  refine ⟨⟨Text.ofNat lower, .hyphen⟩, ⟨lower, Text.numeral_ofNat lower, hlower, rfl⟩, hoption, ?_⟩
  simp [openLine, Gate.text, GateEnd.text]

/-- The range of an open gate ends at the largest number that a bound can have. -/
theorem classify_openLine (hlower : lower ≤ 2147483647) (hoption : IsOptionText option) :
    classify (openLine lower option) = .conditional ⟨lower, 2147483647⟩ option :=
  classify_eq_conditional_iff.mpr (isGated_openLine hlower hoption)

private theorem optionFor_openLine_iff (hlower : lower ≤ 2147483647)
    (hoption : IsOptionText option) :
    (classify (openLine lower option)).optionFor version = some option ↔
      lower ≤ version ∧ version ≤ 2147483647 := by
  simp [classify_openLine hlower hoption, optionFor]

private theorem optionFor_openLine_eq_none (hlower : lower ≤ 2147483647)
    (hoption : IsOptionText option)
    (h : 2147483647 < version) : (classify (openLine lower option)).optionFor version = none := by
  simp [classify_openLine hlower hoption, optionFor, VersionRange.contains, h]

/-- An open gate lets the versions from its lower bound on through that can be a bound themselves,
and so it goes on to let later versions through as long as these can be a bound. A version that can
be none gets nothing, though a runtime can have it. -/
theorem optionFor_openLine (hlower : lower ≤ 2147483647) (hoption : IsOptionText option) :
    (∀ n, (∃ text, major text = .ok n) ↔ n ≤ 4294967295) ∧
    (∀ n ≤ 2147483647,
      (classify (openLine lower option)).optionFor n = some option ↔ lower ≤ n) ∧
    (∀ n, 2147483647 < n → (classify (openLine lower option)).optionFor n = none) ∧
    ∀ n later, (classify (openLine lower option)).optionFor n = some option → n ≤ later →
      ((classify (openLine lower option)).optionFor later = some option ↔ later ≤ 2147483647) := by
  refine ⟨fun n ↦ RuntimeVersion.exists_major_iff, fun n hn ↦ ?_,
    fun n ↦ optionFor_openLine_eq_none hlower hoption, fun n later h hle ↦ ?_⟩
  · rw [optionFor_openLine_iff hlower hoption, and_iff_left hn]
  · have hn := ((optionFor_openLine_iff hlower hoption).mp h).1
    rw [optionFor_openLine_iff hlower hoption, and_iff_right (hn.trans hle)]

/-- The option `-a` from version 2147483647 on. -/
theorem optionFor_openLine_largest :
    IsOptionText ['-', 'a'] ∧
      (∃ text, major text = .ok 4294967295) ∧
      (classify (openLine 2147483647 ['-', 'a'])).optionFor 2147483647 = some ['-', 'a'] ∧
      (classify (openLine 2147483647 ['-', 'a'])).optionFor 2147483648 = none := by
  have hoption : IsOptionText ['-', 'a'] := ⟨rfl, by decide⟩
  obtain ⟨hmajor, hwithin, habove, -⟩ :=
    optionFor_openLine (Nat.le_refl 2147483647) hoption
  exact ⟨hoption, (hmajor _).mpr (Nat.le_refl _), (hwithin _ (Nat.le_refl _)).mpr (Nat.le_refl _),
    habove _ (by decide)⟩

/-- Version 3000000000 of a runtime is later than version 11 and gets no option from behind
`11-:`. -/
theorem not_forall_optionFor_openLine :
    ¬ ∀ (lower : Nat) (option : Text), lower ≤ 2147483647 → IsOptionText option →
      ∀ text version, major text = .ok version →
        ((classify (openLine lower option)).optionFor version = some option ↔ lower ≤ version) := by
  intro h
  have hmajor : major "3000000000".toList = .ok 3000000000 := by rfl
  have hiff := h 11 ['-', 'a'] (by decide) ⟨rfl, by decide⟩ _ _ hmajor
  exact absurd (hiff.mpr (by decide)) (by decide)

end LaunchOptions.OptionLine

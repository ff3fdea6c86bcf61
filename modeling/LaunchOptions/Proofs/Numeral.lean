import LaunchOptions.Text.Decimal
import Mathlib.Data.List.Induction

/-!
# Numerals

The digits of a number, as a grammar beside the fold that gives their value.
-/

namespace LaunchOptions.Text

/-- A run of digits, of which there is at least one. -/
def IsDigits (t : Text) : Prop := t ≠ [] ∧ ∀ c ∈ t, isDigit c

/-- Digits end where something else begins. -/
theorem IsDigits.span {digits : Text} {d : Char} (h : IsDigits digits) (rest : Text)
    (hd : isDigit d = false) :
    (digits ++ d :: rest).takeWhile isDigit = digits ∧
      (digits ++ d :: rest).dropWhile isDigit = d :: rest := by
  rw [List.takeWhile_append_of_pos h.2, List.dropWhile_append_of_pos h.2]
  simp [hd]

/-- The digits of a number, of which there is at least one; zeros may lead. -/
inductive Numeral : Text → Nat → Prop where
  | digit {c : Char} (h : isDigit c) : Numeral [c] (digitValue c)
  | concat {digits : Text} {n : Nat} {c : Char} (hd : Numeral digits n) (h : isDigit c) :
    Numeral (digits ++ [c]) (10 * n + digitValue c)

/-- A numeral is a run of digits. -/
theorem Numeral.isDigits {digits : Text} {n : Nat} (h : Numeral digits n) : IsDigits digits := by
  induction h with
  | digit h => exact ⟨by simp, by simpa using h⟩
  | concat _ h ih =>
    refine ⟨by simp, ?_⟩
    intro c hc
    rcases List.mem_append.mp hc with hc | hc
    · exact ih.2 c hc
    · rw [List.mem_singleton.mp hc]
      exact h

/-- A numeral stands for the value of its digits. -/
theorem Numeral.decimalValue_eq {digits : Text} {n : Nat} (h : Numeral digits n) :
    decimalValue digits = n := by
  induction h with
  | digit _ => simp [decimalValue]
  | concat _ _ ih => rw [decimalValue_concat, ih]

/-- A run of digits is the numeral of its value. -/
theorem IsDigits.numeral {digits : Text} (h : IsDigits digits) :
    Numeral digits (decimalValue digits) := by
  -- The value grows at the end of the run, so the run is taken apart there.
  induction digits using List.reverseRecOn with
  | nil => exact absurd rfl h.1
  | append_singleton digits c ih =>
    have hc : isDigit c := h.2 c (by simp)
    by_cases hd : digits = []
    · subst hd
      simpa [decimalValue] using Numeral.digit hc
    · rw [decimalValue_concat]
      exact .concat (ih ⟨hd, fun x hx ↦ h.2 x (by simp [hx])⟩) hc

/-- A numeral is a run of digits, for their value. -/
theorem numeral_iff {digits : Text} {n : Nat} :
    Numeral digits n ↔ IsDigits digits ∧ decimalValue digits = n := by
  constructor
  · intro h
    exact ⟨h.isDigits, h.decimalValue_eq⟩
  · rintro ⟨h, rfl⟩
    exact h.numeral

private theorem digit_digitChar : ∀ n < 10, isDigit n.digitChar ∧ digitValue n.digitChar = n := by
  decide

/-- The numeral of a number stands for it. -/
theorem numeral_ofNat (n : Nat) : Numeral (ofNat n) n := by
  induction n using Nat.strongRecOn with
  | ind n ih =>
    by_cases h : n < 10
    · obtain ⟨hdigit, hvalue⟩ := digit_digitChar n h
      rw [ofNat, Nat.toDigits_of_lt_base h]
      simpa [hvalue] using Numeral.digit hdigit
    · obtain ⟨hdigit, hvalue⟩ := digit_digitChar (n % 10) (Nat.mod_lt n (by decide))
      have hconcat := (ih (n / 10) (by omega)).concat hdigit
      rw [hvalue, Nat.div_add_mod] at hconcat
      rw [ofNat, Nat.toDigits_of_base_le (by decide) (by omega)]
      exact hconcat

/-- A number is known by its numeral. -/
theorem ofNat_injective : Function.Injective ofNat := by
  intro m n h
  rw [← (numeral_ofNat m).decimalValue_eq, h, (numeral_ofNat n).decimalValue_eq]

end LaunchOptions.Text

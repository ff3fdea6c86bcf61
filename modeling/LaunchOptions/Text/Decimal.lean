import LaunchOptions.Text.Basic

/-!
# Decimal numerals

Runs of the ASCII digits `0` to `9`. Digits of other scripts are ordinary characters here.
-/

namespace LaunchOptions.Text

/-- The ASCII digits. -/
def isDigit (c : Char) : Bool :=
  '0'.toNat ≤ c.toNat && c.toNat ≤ '9'.toNat

/-- The value of a digit. -/
def digitValue (c : Char) : Nat :=
  c.toNat - '0'.toNat

/-- The value of a run of digits; leading zeros carry no value. -/
def decimalValue (digits : Text) : Nat :=
  digits.foldl (fun n c ↦ 10 * n + digitValue c) 0

/-- The decimal numeral of a number, without leading zeros. -/
def ofNat (n : Nat) : Text :=
  Nat.toDigits 10 n

/-- The decimal numeral of a number, with zeros before it up to a width. -/
def ofNatPadded (width n : Nat) : Text :=
  List.replicate (width - (ofNat n).length) '0' ++ ofNat n

/-- One more digit multiplies the value by ten and adds that digit. -/
theorem decimalValue_concat (digits : Text) (c : Char) :
    decimalValue (digits ++ [c]) = 10 * decimalValue digits + digitValue c := by
  simp [decimalValue]

end LaunchOptions.Text

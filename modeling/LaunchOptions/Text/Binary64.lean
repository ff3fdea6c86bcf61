import LaunchOptions.Text.Decimal

/-!
# Decimal numbers in binary64

A decimal number is given by its digits and a power of ten. Which double it denotes decides when two
numerals are the same number, and when a numeral is out of range. The rounding is exact, to the
nearest double, a tie to the even one.
-/

namespace LaunchOptions.Text

/-- A magnitude `significand · 2 ^ exponent` of binary64, in its standard form. -/
structure Binary64 where
  significand : Nat
  exponent : Int
  deriving DecidableEq, Repr

namespace Binary64

/-- Zero. -/
def zero : Binary64 := ⟨0, 0⟩

/-- The least exponent. -/
def minExponent : Int := -1074

/-- The greatest exponent. -/
def maxExponent : Int := 971

/-- The numerator and the denominator of `n / d · 2 ^ -e`. -/
def scale (n d : Nat) (e : Int) : Nat × Nat :=
  if 0 ≤ e then (n, d <<< e.toNat) else (n <<< (-e).toNat, d)

/-- A quotient rounded to the nearest integer, a tie to the even one. -/
def roundQuotient (n d : Nat) : Nat :=
  let q := n / d
  let r := n % d
  if 2 * r < d then q else if d < 2 * r then q + 1 else q + q % 2

/-- The double nearest to `n / d`, which is positive; `none` if that is out of range. -/
def ofRatio? (n d : Nat) : Option Binary64 :=
  -- With this exponent the significand lies between `2 ^ 51` and `2 ^ 53`.
  let guess : Int := (n.log2 : Int) - (d.log2 : Int) - 52
  let (a, b) := scale n d guess
  let e := max (if a < b <<< 52 then guess - 1 else guess) minExponent
  let (a, b) := scale n d e
  let s := roundQuotient a b
  let (s, e) := if s = 1 <<< 53 then (1 <<< 52, e + 1) else (s, e)
  if maxExponent < e then none else some (if s = 0 then zero else ⟨s, e⟩)

/-- The double nearest to `n · 10 ^ exponent`; `none` if that is out of range. -/
def ofDecimal? (n : Nat) (exponent : Int) : Option Binary64 :=
  let magnitude := (ofNat n).length + exponent
  if n = 0 || magnitude < -330 then some zero
  else if 310 < magnitude then none
  else if 0 ≤ exponent then ofRatio? (n * Nat.pow 10 exponent.toNat) 1
  else ofRatio? n (Nat.pow 10 (-exponent).toNat)

end Binary64

end LaunchOptions.Text

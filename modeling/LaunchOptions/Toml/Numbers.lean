import LaunchOptions.Text.Binary64
import LaunchOptions.Toml.Strings

/-!
# TOML numbers

Integers have 64 bits; floats are out of range if they round to infinity. Between two digits there
may be an underscore.
-/

namespace LaunchOptions.Toml

/-- The digits that come next in a base, with single underscores between them taken out. -/
def digitsFrom (isDigit : Char → Bool) : Text → Text × Text
  | '_' :: c :: rest =>
    if isDigit c then
      let (digits, rest) := digitsFrom isDigit (c :: rest)
      (digits, rest)
    else ([], '_' :: c :: rest)
  | c :: rest =>
    if isDigit c then
      let (digits, rest) := digitsFrom isDigit rest
      (c :: digits, rest)
    else ([], c :: rest)
  | [] => ([], [])

/-- Read digits with underscores between them; the first one is a digit. -/
def digits? (isDigit : Char → Bool) : Read Text
  | c :: rest => if isDigit c then some (digitsFrom isDigit (c :: rest)) else none
  | [] => none

/-- Read a sign, if there is one; whether it is negative. -/
def sign : Text → Bool × Text
  | '-' :: rest => (true, rest)
  | '+' :: rest => (false, rest)
  | t => (false, t)

/-- Read the digits of a decimal integer: a zero stands alone. -/
def wholeDigits? : Read Text
  | '0' :: rest => some (['0'], rest)
  | t => digits? Text.isDigit t

/-- The bases of integers by the letter after the zero. -/
def bases : List (Char × Nat) := [('x', 16), ('o', 8), ('b', 2)]

/-- The value of some digits in a base. -/
def valueIn (base : Nat) (digits : Text) : Nat :=
  digits.foldl (fun n c ↦ base * n + (hexValue? c).getD 0) 0

/-- An integer that fits 64 bits. -/
def inRange? (n : Int) : Option Int :=
  if -0x8000000000000000 ≤ n && n ≤ 0x7FFFFFFFFFFFFFFF then some n else none

/-- Read a decimal integer. -/
def decimal? (t : Text) : Option (Int × Text) := do
  let (negative, rest) := sign t
  let (digits, rest) ← wholeDigits? rest
  let n : Int := Text.decimalValue digits
  return (← inRange? (if negative then -n else n), rest)

/-- Read an integer, in a base if it begins with the mark of one. -/
def integer? : Read Int
  | '0' :: c :: rest =>
    match bases.lookup c with
    | some base => do
      let (digits, rest) ← digits? (fun c ↦ (hexValue? c).any (· < base)) rest
      return (← inRange? (valueIn base digits), rest)
    | none => decimal? ('0' :: c :: rest)
  | t => decimal? t

/-- Read the fraction of a float, if there is one. -/
def fraction? : Read Text
  | '.' :: rest => digits? Text.isDigit rest
  | t => some ([], t)

/-- Read the exponent of a float, if there is one. -/
def exponent? : Read Int
  | c :: rest =>
    if c = 'e' || c = 'E' then do
      let (negative, rest) := sign rest
      let (digits, rest) ← digits? Text.isDigit rest
      let n : Int := Text.decimalValue digits
      return (if negative then -n else n, rest)
    else some (0, c :: rest)
  | [] => some (0, [])

/-- The rest of a text after a given beginning. -/
def after? (beginning : String) (t : Text) : Option Text :=
  if beginning.toList.isPrefixOf t then some (t.drop beginning.length) else none

/-- Pass over a float with a fraction or an exponent. -/
def afterDecimalFloat? (t : Text) : Option Text := do
  let (negative, rest) := sign t
  let (whole, rest) ← wholeDigits? rest
  let (fraction, afterFraction) ← fraction? rest
  let (exponent, after) ← exponent? afterFraction
  if after.length = rest.length then none
  else
    match Text.Binary64.ofDecimal? (Text.decimalValue (whole ++ fraction))
        (exponent - fraction.length) with
    | some _ => some after
    | none => if negative then some after else none

/-- Pass over `inf` or `nan` with an optional sign. -/
def afterSpecialFloat? (t : Text) : Option Text :=
  let rest := (sign t).2
  (after? "inf" rest).or (after? "nan" rest)

/-- What a text holds before the rest of it. -/
def before (t rest : Text) : Text := t.take (t.length - rest.length)

/-- Read a float as it is written. -/
def float? (t : Text) : Option (Text × Text) :=
  ((afterDecimalFloat? t).or (afterSpecialFloat? t)).map fun rest ↦ (before t rest, rest)

/-- Read a boolean. -/
def boolean? (t : Text) : Option (Bool × Text) :=
  ((after? "true" t).map (true, ·)).or ((after? "false" t).map (false, ·))

end LaunchOptions.Toml

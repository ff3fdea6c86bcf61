import LaunchOptions.Yaml.Spot
import LaunchOptions.Yaml.Value

/-!
# The meaning of plain scalars

Without quotes, `null`, booleans and numbers mean what they say and all else is a string. Integers
have up to 64 bits; a decimal numeral with leading zeros is a string.
-/

namespace LaunchOptions.Yaml

/-- The spellings of null. -/
def isNull (t : Text) : Bool :=
  ["null", "Null", "NULL", "~"].any (·.toList = t)

/-- The boolean that a text spells. -/
def boolean? (t : Text) : Option Bool :=
  if ["true", "True", "TRUE"].any (·.toList = t) then some true
  else if ["false", "False", "FALSE"].any (·.toList = t) then some false
  else none

/-- The value of a numeral in a base. -/
def numeral? (base : Nat) (digits : Text) : Option Nat :=
  if digits.isEmpty then none
  else
    digits.foldlM (fun n c ↦
      match hexValue? c with
      | some d => if d < base then some (base * n + d) else none
      | none => none) 0

/-- The bases of integers by their marks. -/
def bases : List (Text × Nat) := [("0x".toList, 16), ("0o".toList, 8), ("0b".toList, 2)]

/-- The part of a text after its beginning. -/
def after? (beginning t : Text) : Option Text :=
  if beginning.isPrefixOf t then some (t.drop beginning.length) else none

/-- The value of a numeral with the mark of a base, if it is at most `bound`. -/
def marked? (bound : Nat) (t : Text) : Option Nat :=
  bases.findSome? fun (mark, base) ↦ do
    let n ← numeral? base (← after? mark t)
    if n ≤ bound then some n else none

/-- Whether a text is a decimal numeral with a leading zero; a sign does not count. -/
def hasLeadingZero (t : Text) : Bool :=
  let digits := match t with
    | '-' :: rest | '+' :: rest => rest
    | _ => t
  1 < digits.length && digits.head? = some '0' && digits.all Text.isDigit

/-- The value of a decimal numeral without leading zeros, if it is at most `bound`. -/
def unmarked? (bound : Nat) (t : Text) : Option Nat := do
  if hasLeadingZero t then none
  else
    let n ← numeral? 10 t
    if n ≤ bound then some n else none

/-- The text without a `+` before it. -/
def dropPlus : Text → Text
  | '+' :: rest => rest
  | t => t

/-- The integer of a text that is not negative and at most `bound`. -/
def natural? (bound : Nat) (t : Text) : Option Int :=
  ((marked? bound (dropPlus t)).or (unmarked? bound (dropPlus t))).map Int.ofNat

/-- The integer of a text that begins with `-` and is at least `-bound`. -/
def negative? (bound : Nat) : Text → Option Int
  | '-' :: rest => ((marked? bound rest).or (unmarked? bound rest)).map fun n ↦ -(n : Int)
  | _ => none

/-- The integer that a text spells in a given number of bits. -/
def integer? (bits : Nat) (t : Text) : Option Int :=
  (natural? ((1 <<< bits) - 1) t).or (negative? (1 <<< (bits - 1)) t)

/-- The exponent after a decimal fraction, if the text is one. -/
def exponent? : Text → Option Int
  | [] => some 0
  | c :: rest =>
    if c = 'e' || c = 'E' then
      match rest with
      | '-' :: digits => (numeral? 10 digits).map fun n ↦ -(n : Int)
      | '+' :: digits => (numeral? 10 digits).map Int.ofNat
      | digits => (numeral? 10 digits).map Int.ofNat
    else none

/-- The magnitude of a decimal fraction: digits with at most one point among, before or after them,
and an exponent. -/
def magnitude? (t : Text) : Option Text.Binary64 :=
  let whole := t.takeWhile Text.isDigit
  let rest := t.dropWhile Text.isDigit
  let (fraction, rest) := match rest with
    | '.' :: more => (more.takeWhile Text.isDigit, more.dropWhile Text.isDigit)
    | _ => ([], rest)
  if whole.isEmpty && fraction.isEmpty then none
  else do
    let exponent ← exponent? rest
    Text.Binary64.ofDecimal? (Text.decimalValue (whole ++ fraction)) (exponent - fraction.length)

/-- The double of a sign and a magnitude. -/
def Number.ofMagnitude (negative : Bool) (magnitude : Text.Binary64) : Number :=
  .real (negative && magnitude ≠ .zero) magnitude

/-- The spellings of infinity. -/
def isInfinity (t : Text) : Bool :=
  [".inf", ".Inf", ".INF"].any (·.toList = t)

/-- The double that a text spells. -/
def real? (t : Text) : Option Number :=
  if isInfinity (dropPlus t) then some (.infinite false)
  else if [".nan", ".NaN", ".NAN"].any (·.toList = t) then some .notANumber
  else
    match t with
    | '-' :: rest =>
      if isInfinity rest then some (.infinite true)
      else (magnitude? rest).map (.ofMagnitude true)
    | t => (magnitude? (dropPlus t)).map (.ofMagnitude false)

/-- The integer value of a text: `none` within if there is none, and `none` if it has more than 64
but not more than 128 bits, which no value holds. -/
def integerValue? (t : Text) : Option (Option Value) :=
  match integer? 64 t with
  | some n => some (some (.number (.integer n)))
  | none => if (integer? 128 t).isSome then none else some none

/-- The value of a plain scalar. -/
def plainValue? (t : Text) : Option Value :=
  if t.isEmpty || isNull t then some .null
  else
    match boolean? t with
    | some b => some (.boolean b)
    | none =>
      match integerValue? t with
      | none => none
      | some (some v) => some v
      | some none =>
        if hasLeadingZero t then some (.string t)
        else some (((real? t).map Value.number).getD (.string t))

end LaunchOptions.Yaml

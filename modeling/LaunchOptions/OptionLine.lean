import LaunchOptions.Text.Decimal
import LaunchOptions.VersionRange

/-!
# Lines of an options file

A line is a comment (`#…`), blank, an option (`-…`), or an option behind a gate: `11:-Xmx2g` for
one version, `11-:-Xmx2g` from a version on, `11-17:-Xmx2g` for the versions between two bounds.
Everything else is invalid.

Specification: `SPEC_FULL.md`, sections 3 and 4.1.
-/

namespace LaunchOptions

/-- What a line says. -/
inductive OptionLine where
  /-- The line begins with `#`. -/
  | comment
  /-- The line holds blanks only. -/
  | blank
  /-- An option for every version. -/
  | unconditional (option : Text)
  /-- An option for the versions of a range. -/
  | conditional (range : VersionRange) (option : Text)
  /-- The line has no other reading. -/
  | invalid
  deriving DecidableEq, Repr

namespace OptionLine

/-- The characters of a blank line: space, tab, line feed, vertical tab, form feed and carriage
return, but no other white space.
`SPEC_FULL.md`, section 4.1, rule 2. -/
def isBlank (c : Char) : Bool :=
  c = ' ' || c = '\t' || c = '\n' || c = '\x0B' || c = '\x0C' || c = '\r'

/-- An option begins with a hyphen and holds no line feed. -/
def isOption : Text → Bool
  | '-' :: rest => !rest.contains '\n'
  | _ => false

/-- The version that a run of digits names, if it is a possible bound.
`SPEC_FULL.md`, section 4.1, rule 7. -/
def bound? (digits : Text) : Option Nat :=
  let version := Text.decimalValue digits
  if version ≤ VersionRange.maxBound then some version else none

/-- The range and the option after the digits of a lower bound.
`SPEC_FULL.md`, section 4.1, rules 4 to 7. -/
def gated? (lower : Text) : Text → Option (VersionRange × Text)
  | ':' :: option => do
    return (VersionRange.exactly (← bound? lower), option)
  | '-' :: rest =>
    let upper := rest.takeWhile Text.isDigit
    match rest.dropWhile Text.isDigit with
    | ':' :: option => do
      if upper.isEmpty then
        return (VersionRange.atLeast (← bound? lower), option)
      else
        return (← VersionRange.between? (← bound? lower) (← bound? upper), option)
    | _ => none
  | _ => none

/-- The reading of a line that is neither a comment nor blank.
`SPEC_FULL.md`, section 4.1, rules 3 to 8. -/
def ofContent (line : Text) : OptionLine :=
  if isOption line then .unconditional line
  else
    let lower := line.takeWhile Text.isDigit
    if lower.isEmpty then .invalid
    else
      match gated? lower (line.dropWhile Text.isDigit) with
      | some (range, option) => if isOption option then .conditional range option else .invalid
      | none => .invalid

/-- The reading of a line.
`SPEC_FULL.md`, section 4.1, rules 1 to 8. -/
def classify (line : Text) : OptionLine :=
  if line.head? = some '#' then .comment
  else if line.all isBlank then .blank
  else ofContent line

/-- The option that a line gives to a version.
`SPEC_FULL.md`, section 4.1, rules 3 to 6. -/
def optionFor (line : OptionLine) (version : Nat) : Option Text :=
  match line with
  | .unconditional option => some option
  | .conditional range option => if range.contains version then some option else none
  | .comment | .blank | .invalid => none

/-- Whether a line has no reading. -/
def isInvalid (line : OptionLine) : Bool :=
  line matches .invalid

/-- The test for lines without a reading is exact. -/
@[simp] theorem isInvalid_iff {line : OptionLine} : line.isInvalid = true ↔ line = .invalid := by
  cases line <;> simp [isInvalid]

end OptionLine

end LaunchOptions

import LaunchOptions.OptionsError
import LaunchOptions.Text.WhiteSpace

/-!
# Runtime versions

The major version of a runtime, out of a version text such as `17.0.2`, `1.8.0_292`, `22+36` or
`jdk-21`. A leading `1.` belongs to the old numbering and is passed over.

Specification: `SPEC_FULL.md`, section 4.5.
-/

namespace LaunchOptions.RuntimeVersion

/-- The major version when there is no version text. -/
def fallbackMajor : Nat := 8

/-- The largest major version. -/
def maxMajor : Nat := 4294967295

/-- The text without a leading `1.`. -/
def dropLegacyMark : Text → Text
  | '1' :: '.' :: rest => rest
  | t => t

/-- The digits of the major version. -/
def majorDigits (version : Text) : Text :=
  (dropLegacyMark (version.dropWhile (fun c ↦ !Text.isDigit c))).takeWhile Text.isDigit

/-- The major version of a version text; a blank one has the fallback.
`SPEC_FULL.md`, section 4.5. -/
def major (version : Text) : Except OptionsError Nat :=
  let version := version.trim
  if version.isEmpty then .ok fallbackMajor
  else
    let digits := majorDigits version
    if digits.isEmpty || maxMajor < Text.decimalValue digits then
      .error (.unrecognisedVersion version)
    else .ok (Text.decimalValue digits)

end LaunchOptions.RuntimeVersion

/-!
# Version ranges

An inclusive range of major versions, which gates an option.

Specification: `SPEC_FULL.md`, section 3.
-/

namespace LaunchOptions

/-- The versions from `lower` to `upper`, both included. -/
structure VersionRange where
  lower : Nat
  upper : Nat
  deriving DecidableEq, Repr

namespace VersionRange

/-- The largest version that a bound can name, and the upper end of an open range. -/
def maxBound : Nat := 2147483647

/-- The range between two bounds, which must be in order. -/
def between? (lower upper : Nat) : Option VersionRange :=
  if lower ≤ upper then some ⟨lower, upper⟩ else none

/-- The range of one version. -/
def exactly (version : Nat) : VersionRange :=
  ⟨version, version⟩

/-- The range from a version on, up to the largest bound. -/
def atLeast (lower : Nat) : VersionRange :=
  ⟨lower, maxBound⟩

/-- Whether a version lies in the range. -/
def contains (range : VersionRange) (version : Nat) : Bool :=
  range.lower ≤ version && version ≤ range.upper

/-- A version lies in a range if it lies between the bounds. -/
@[simp] theorem contains_iff {range : VersionRange} {version : Nat} :
    range.contains version = true ↔ range.lower ≤ version ∧ version ≤ range.upper := by
  simp [contains]

end VersionRange

end LaunchOptions

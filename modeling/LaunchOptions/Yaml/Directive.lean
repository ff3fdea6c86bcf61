import LaunchOptions.Yaml.Token

/-!
# Directives

Lines before a document that begin with `%`: the version of YAML, and handles of tags.
-/

namespace LaunchOptions.Yaml

/-- The most digits of a version number. -/
def maxVersionDigits : Nat := 9

/-- Read a version number. -/
def versionNumber? (spots : List Spot) : Option (Nat × List Spot) :=
  let digits := chars (spots.takeWhile (fun s ↦ s.char.isDigit))
  if digits.isEmpty || maxVersionDigits < digits.length then none
  else
    some (digits.foldl (fun n c ↦ 10 * n + (c.toNat - '0'.toNat)) 0,
      spots.dropWhile (fun s ↦ s.char.isDigit))

/-- Read the two version numbers of a `%YAML` directive. -/
def versionDirective? (spots : List Spot) : Option (Token × List Spot) := do
  let (major, rest) ← versionNumber? (skipBlanks spots)
  if nextIs '.' rest then
    let (minor, rest) ← versionNumber? (rest.drop 1)
    return (.versionDirective major minor, rest)
  else none

/-- Read the handle and the replacement of a `%TAG` directive. -/
def tagDirective? (spots : List Spot) : Option (Token × List Spot) := do
  let (handle, rest) ← handle? (skipBlanks spots)
  if !(isClosedHandle handle || handle = ['!']) then none
  else if !(rest.head?.any fun s ↦ isBlank s.char) then none
  else
    let (replacement, rest) ← tagBytes? true (skipBlanks rest)
    if replacement.isEmpty || !endsWord rest then none
    else return (.tagDirective handle (upToZero replacement), rest)

/-- Read a directive with its line, after its `%`. -/
def directive? (spots : List Spot) : Option (Token × List Spot) := do
  let name := chars (spots.takeWhile (fun s ↦ isNameChar s.char))
  let rest := spots.dropWhile (fun s ↦ isNameChar s.char)
  if !endsWord rest then none
  else
    let (token, rest) ←
      if name = "YAML".toList then versionDirective? rest
      else if name = "TAG".toList then tagDirective? rest
      else none
    return (token, ← finishLine? rest)

end LaunchOptions.Yaml

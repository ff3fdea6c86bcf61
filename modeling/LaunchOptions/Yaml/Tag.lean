import LaunchOptions.Text.Utf8
import LaunchOptions.Yaml.Spot

/-!
# Tags

A tag is written in full, `!<…>`, or as a handle and a suffix: `!local`, `!!str`, `!e!name`. The
text after the handle may give bytes by `%` and two hexadecimal digits, so a tag is made of bytes. A
zero byte among them ends what counts of a part.
-/

namespace LaunchOptions.Yaml

/-- A tag as it is written: the handle to look up, if there is one, and the rest. -/
structure WrittenTag where
  handle : Text
  suffix : Bytes
  deriving DecidableEq, Repr

/-- The characters that tags are made of, apart from brackets and commas. -/
def isTagChar (c : Char) : Bool :=
  isNameChar c || ";/?:@&=+$.%!~*'()".toList.contains c

/-- The bytes, after the first one, of a character in UTF-8 that begins with a given byte. -/
def continuationCount? (b : Nat) : Option Nat :=
  if b < 0x80 then some 0
  else if b < 0xC0 then none
  else if b < 0xE0 then some 1
  else if b < 0xF0 then some 2
  else if b < 0xF8 then some 3
  else none

/-- Read a byte given by `%` and two digits. -/
def escapedByte? : List Spot → Option (Nat × List Spot)
  | p :: a :: b :: rest => do
    if p.char = '%' then
      return (16 * (← hexValue? a.char) + (← hexValue? b.char), rest)
    else none
  | _ => none

/-- Read `count` escaped continuation bytes. -/
def escapedTail? : (count : Nat) → List Spot → Option (Bytes × List Spot)
  | 0, spots => some ([], spots)
  | count + 1, spots => do
    let (b, rest) ← escapedByte? spots
    if 0x80 ≤ b && b < 0xC0 then
      let (bytes, rest) ← escapedTail? count rest
      return (UInt8.ofNat b :: bytes, rest)
    else none

/-- Read one character given by escaped bytes. -/
def escapedChar? (spots : List Spot) : Option (Bytes × List Spot) := do
  let (b, rest) ← escapedByte? spots
  let (bytes, rest) ← escapedTail? (← continuationCount? b) rest
  return (UInt8.ofNat b :: bytes, rest)

/-- Read the longest run of tag characters; a verbatim tag may also hold brackets and commas. -/
def tagBytes? (verbatim : Bool) (spots : List Spot) : Option (Bytes × List Spot) :=
  match spots with
  | [] => some ([], [])
  | s :: rest =>
    if s.char = '%' then
      match escapedChar? (s :: rest) with
      | none => none
      | some (bytes, after) =>
        if after.length < (s :: rest).length then
          (tagBytes? verbatim after).map fun (more, rest) ↦ (bytes ++ more, rest)
        else none
    else if isTagChar s.char || (verbatim && (s.char = ',' || s.char = '[' || s.char = ']')) then
      (tagBytes? verbatim rest).map fun (more, rest) ↦ (String.utf8EncodeChar s.char ++ more, rest)
    else some ([], s :: rest)
termination_by spots.length
decreasing_by all_goals simp only [List.length_cons] at *; omega

/-- What counts of a part of a tag: the bytes up to the first zero. -/
def upToZero (bytes : Bytes) : Bytes := bytes.takeWhile (· ≠ 0)

/-- Read a handle as far as it goes: `!`, a name, and a second `!` if there is one. -/
def handle? : List Spot → Option (Text × List Spot)
  | [] => none
  | s :: rest =>
    if s.char = '!' then
      let name := chars (rest.takeWhile (fun s ↦ isNameChar s.char))
      match rest.dropWhile (fun s ↦ isNameChar s.char) with
      | n :: more =>
        if n.char = '!' then some ('!' :: name ++ ['!'], more) else some ('!' :: name, n :: more)
      | [] => some ('!' :: name, [])
    else none

/-- Whether a handle is closed by a second `!`. -/
def isClosedHandle (handle : Text) : Bool :=
  1 < handle.length && handle.getLast? = some '!'

/-- Read a tag. One that is `!` alone has no handle. -/
def tag? (inFlow : Bool) (spots : List Spot) : Option (WrittenTag × List Spot) := do
  let (tag, rest) ←
    if nextIs '<' (spots.drop 1) then do
      let (suffix, rest) ← tagBytes? true (spots.drop 2)
      if suffix.isEmpty || !nextIs '>' rest then none
      else some (⟨[], upToZero suffix⟩, rest.drop 1)
    else do
      let (handle, rest) ← handle? spots
      let (suffix, rest) ← tagBytes? false rest
      if isClosedHandle handle then
        if suffix.isEmpty then none else some (⟨handle, upToZero suffix⟩, rest)
      else
        let suffix := upToZero (Utf8.encode (handle.drop 1) ++ suffix)
        some (if suffix.isEmpty then ⟨[], Utf8.encode ['!']⟩ else ⟨['!'], suffix⟩, rest)
  if endsWord rest || (inFlow && nextIs ',' rest) then some (tag, rest) else none

end LaunchOptions.Yaml

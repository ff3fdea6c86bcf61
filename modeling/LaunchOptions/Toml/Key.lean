import LaunchOptions.Toml.Strings

/-!
# TOML keys

A key is bare or a string of one line. Dots make a path of keys.
-/

namespace LaunchOptions.Toml

/-- The characters of bare keys. -/
def isBareKeyChar (c : Char) : Bool := c.isAlphanum || c = '_' || c = '-'

/-- Read a key without dots. -/
def simpleKey? : Read Text
  | '"' :: rest => basicFrom [] rest
  | '\'' :: rest => literalFrom [] rest
  | t =>
    let name := t.takeWhile isBareKeyChar
    if name.isEmpty then none else some (name, t.dropWhile isBareKeyChar)

/-- The most keys of a path. -/
def maxKeys : Nat := 79

/-- Read a path of at most `allowance` keys with the blanks around it. -/
def keyPathFrom? : (allowance : Nat) → Read (List Text)
  | 0, _ => none
  | allowance + 1, t =>
    match simpleKey? (skipBlanks t) with
    | none => none
    | some (key, rest) =>
      match skipBlanks rest with
      | '.' :: rest => (keyPathFrom? allowance rest).map fun (keys, rest) ↦ (key :: keys, rest)
      | rest => some ([key], rest)

/-- Read a path of keys with the blanks around it. -/
def keyPath? : Read (List Text) := keyPathFrom? maxKeys

end LaunchOptions.Toml

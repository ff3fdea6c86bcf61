import LaunchOptions.CommandLine.Request

/-!
# Items of a command line

What each argument says by itself. Two dashes begin a long option, whose value can follow an `=`.
One dash begins letters, of which the first that takes a value takes the rest of the argument. Two
dashes alone make operands of all arguments that follow, and a single dash is a word.

Specification: `SPEC_FULL.md`, section 6.
-/

namespace LaunchOptions.CommandLine

/-- What an argument, or a letter of one, says. -/
inductive Item where
  | switch (switch : Switch)
  | switchWithValue (switch : Switch) (value : Text)
  /-- A named slot, with the value if the same argument holds it. -/
  | slot (slot : Slot) (value : Option Text)
  /-- The value of the slot before it, or an operand. -/
  | word (t : Text)
  | operand (t : Text)
  /-- An option without meaning. -/
  | unknown (shown : Text)
  deriving DecidableEq, Repr

namespace Item

/-- What two dashes followed by a text say. -/
def ofLong (t : Text) : Item :=
  let name := t.takeWhile (· ≠ '=')
  let value := (t.dropWhile (· ≠ '=')).tail?
  match Switch.all.find? (fun s ↦ s.longName = name), value with
  | some s, none => .switch s
  | some s, some value => .switchWithValue s value
  | none, _ =>
    match Slot.all.find? (fun s ↦ s.longName? = some name) with
    | some s => .slot s value
    | none => .unknown ('-' :: '-' :: name)

/-- The value that follows the letter of a slot, unless nothing does; an `=` between them does not
count. -/
def attached : Text → Option Text
  | [] => none
  | '=' :: value => some value
  | value => some value

/-- What one dash followed by letters says. -/
def ofLetters : Text → List Item
  | [] => []
  | c :: rest =>
    match Switch.all.find? (fun s ↦ s.letter = c) with
    | some s => .switch s :: ofLetters rest
    | none =>
      match Slot.all.find? (fun s ↦ s.letter? = some c) with
      | some s => [.slot s (attached rest)]
      | none => [.unknown ['-', c]]

/-- What arguments say, in their order. -/
def ofArguments : List Text → List Item
  | [] => []
  | ['-', '-'] :: rest => rest.map .operand
  | ('-' :: '-' :: t) :: rest => ofLong t :: ofArguments rest
  | ('-' :: c :: t) :: rest => ofLetters (c :: t) ++ ofArguments rest
  | t :: rest => .word t :: ofArguments rest

end Item

end LaunchOptions.CommandLine

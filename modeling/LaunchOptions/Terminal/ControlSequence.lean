import LaunchOptions.Text.Basic

/-!
# Control sequences

A terminal takes some characters as commands: control characters, and sequences of characters that
an escape begins. `ControlSequence.strip` leaves out of a text what a terminal would not show as a
character of its own.

The reading of a sequence goes on through characters that cannot belong to it. A white-space control
character within one is shown, and from there on characters are shown until the next command; only
then is the sequence taken up again where it was left.
-/

namespace LaunchOptions.Terminal

namespace ControlSequence

/-- Where the reading of control sequences stands. -/
inductive State where
  /-- In no sequence. -/
  | ground
  /-- After an escape. -/
  | escape
  /-- In an escape sequence with intermediate characters. -/
  | escapeIntermediate
  /-- In a control sequence, `ESC [`. -/
  | control
  /-- At the beginning of a device control string, `ESC P`. -/
  | deviceEntry
  /-- In the parameters of a device control string. -/
  | deviceParameter
  /-- In the intermediate characters of a device control string. -/
  | deviceIntermediate
  /-- In a string that ends with the C1 control character `ST`. -/
  | string
  /-- In an operating system command, `ESC ]`. -/
  | systemCommand
  deriving DecidableEq, Repr

/-- The characters that begin an escape sequence or break one off. -/
def isInterruption (n : Nat) : Bool := n = 0x18 || n = 0x1A || n = 0x1B

/-- The state after a character that interrupts any sequence. -/
def interrupted (n : Nat) : State := if n = 0x1B then .escape else .ground

/-- The state after a graphic ASCII character. -/
def graphic (state : State) (n : Nat) : State :=
  match state with
  | .ground => .ground
  | .escape =>
    if n < 0x30 then .escapeIntermediate
    else if n = 0x5B then .control
    else if n = 0x5D then .systemCommand
    else if n = 0x50 then .deviceEntry
    else if n = 0x58 || n = 0x5E || n = 0x5F then .string
    else .ground
  | .escapeIntermediate => if n < 0x30 then .escapeIntermediate else .ground
  | .control => if n < 0x40 then .control else .ground
  | .deviceEntry =>
    if n < 0x30 then .deviceIntermediate else if n < 0x40 then .deviceParameter else .string
  | .deviceParameter =>
    if n < 0x30 then .deviceIntermediate else if n < 0x3C then .deviceParameter else .string
  | .deviceIntermediate => if n < 0x30 then .deviceIntermediate else .string
  | .string => .string
  | .systemCommand => .systemCommand

/-- Whether control characters act at once in a state, and so are no part of a string. -/
def acts : State → Bool
  | .ground | .escape | .escapeIntermediate | .control => true
  | .deviceEntry | .deviceParameter | .deviceIntermediate | .string | .systemCommand => false

/-- The control characters that are shown: tab, line feed, form feed and carriage return. -/
def isShownControl (n : Nat) : Bool := n = 0x09 || n = 0x0A || n = 0x0C || n = 0x0D

/-- The state after an ASCII character, and whether the character is shown. -/
def step (state : State) (n : Nat) : State × Bool :=
  if isInterruption n then (interrupted n, false)
  else if n = 0x07 && state = .systemCommand then (.ground, false)
  else if n < 0x20 then (state, acts state && isShownControl n)
  else if n = 0x7F then (state, false)
  else (graphic state n, state = .ground)

/-- The byte that ends a string. -/
def stringTerminator : UInt8 := 0x9C

/-- The state after a character that is not ASCII and not in the ground state. The terminator of a
string is looked for among the bytes of the character. -/
def foreign (state : State) (c : Char) : State :=
  if state = .string && (String.utf8EncodeChar c).contains stringTerminator then .ground else state

/-- Where the stripping of a text stands. -/
structure Reader where
  state : State := .ground
  /-- Whether the last character was shown. -/
  showing : Bool := false
  deriving DecidableEq, Repr

/-- The reader after a character, and whether the character is shown. -/
def Reader.step (reader : Reader) (c : Char) : Reader × Bool :=
  let n := c.toNat
  if 0x80 ≤ n then
    if reader.showing || reader.state = .ground then (⟨.ground, true⟩, true)
    else (⟨foreign reader.state c, false⟩, false)
  else if reader.showing && (ControlSequence.step .ground n).2 then (reader, true)
  else
    let (state, shown) := ControlSequence.step reader.state n
    (⟨state, shown⟩, shown)

/-- The characters of a text that are shown, from some reader on. -/
def stripFrom (reader : Reader) : Text → Text
  | [] => []
  | c :: rest =>
    let (reader, shown) := reader.step c
    if shown then c :: stripFrom reader rest else stripFrom reader rest

/-- The text without control sequences and characters that are not shown. -/
def strip (t : Text) : Text := stripFrom {} t

end ControlSequence

end LaunchOptions.Terminal

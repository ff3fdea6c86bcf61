import LaunchOptions.Text.Basic

/-!
# UTF-8

Bytes are read by a machine that takes one byte at a time. What it reads is a sequence of
characters and ill-formed stretches of bytes. A stretch is maximal: it ends where no
continuation could have made it a character. `decode?` refuses ill-formed bytes and
`decodeLossy` puts one replacement character for each stretch.

Specification: `SPEC_FULL.md`, section 4.2 (processing).
-/

namespace LaunchOptions

/-- Bytes in order. -/
abbrev Bytes := List UInt8

namespace Utf8

/-- Where the machine stands between two bytes. -/
inductive State where
  /-- Between two characters. -/
  | ground
  /-- Within a character: `owed + 1` continuation bytes are missing, the next one carries a
  payload in `low`–`high`, and `value` is what the bytes so far contribute. -/
  | within (owed low high value : Nat)
  deriving DecidableEq, Repr

/-- What has been read: a character, or `none` for an ill-formed stretch. -/
abbrev Decoded := Option Char

/-- The six payload bits of a continuation byte. -/
def payload? (b : Nat) : Option Nat :=
  if 0x80 ≤ b ∧ b < 0xC0 then some (b - 0x80) else none

/-- What the first byte of a character yields. Second bytes are narrowed after E0, ED, F0 and F4,
which rules out overlong forms, surrogates and values above 10FFFF. -/
def start (b : Nat) : List Decoded × State :=
  if b < 0x80 then ([some (Char.ofNat b)], .ground)
  else if b < 0xC2 then ([none], .ground)
  else if b < 0xE0 then ([], .within 0 0 0x3F (b - 0xC0))
  else if b < 0xF0 then
    ([], .within 1 (if b = 0xE0 then 0x20 else 0) (if b = 0xED then 0x1F else 0x3F) (b - 0xE0))
  else if b < 0xF5 then
    ([], .within 2 (if b = 0xF0 then 0x10 else 0) (if b = 0xF4 then 0x0F else 0x3F) (b - 0xF0))
  else ([none], .ground)

/-- The state, and the character if it is complete, after a payload that fits. -/
def extend (owed value payload : Nat) : List Decoded × State :=
  match owed with
  | 0 => ([some (Char.ofNat (64 * value + payload))], .ground)
  | owed + 1 => ([], .within owed 0 0x3F (64 * value + payload))

/-- The effect of one byte. A byte that cannot continue a character ends an ill-formed stretch
and is itself read as a first byte. -/
def step : State → Nat → List Decoded × State
  | .ground, b => start b
  | .within owed low high value, b =>
    match (payload? b).filter (fun p ↦ low ≤ p && p ≤ high) with
    | some p => extend owed value p
    | none => (none :: (start b).1, (start b).2)

/-- What the end of the bytes adds: a character that was begun is ill-formed. -/
def finish : State → List Decoded
  | .ground => []
  | .within .. => [none]

/-- What some bytes hold, read from a given state. -/
def scanFrom (state : State) : Bytes → List Decoded
  | [] => finish state
  | b :: rest => (step state b.toNat).1 ++ scanFrom (step state b.toNat).2 rest

/-- The characters and ill-formed stretches of some bytes, in order. -/
def scan (bytes : Bytes) : List Decoded :=
  scanFrom .ground bytes

/-- The character that stands for an ill-formed stretch. -/
def replacement : Char := '\uFFFD'

/-- The text of some bytes, ill-formed stretches replaced. -/
def decodeLossy (bytes : Bytes) : Text :=
  (scan bytes).map (·.getD replacement)

/-- The text of some bytes, if they are well formed. -/
def decode? (bytes : Bytes) : Option Text :=
  (scan bytes).mapM id

/-- The bytes of a text. -/
def encode (t : Text) : Bytes :=
  t.flatMap String.utf8EncodeChar

/-- An ASCII byte ends whatever came before it, as the end of the bytes would, and stands for
itself. -/
theorem step_ascii {b : Nat} (h : b < 0x80) (state : State) :
    step state b = (finish state ++ [some (Char.ofNat b)], .ground) := by
  cases state with
  | ground => simp [step, start, h, finish]
  | within owed low high value =>
    have hp : payload? b = none := by simp [payload?]; omega
    simp [step, start, h, hp, finish]

/-- Bytes may be cut before an ASCII byte without a change to what is read. -/
theorem scanFrom_append_ascii {b : UInt8} (h : b.toNat < 0x80) (state : State)
    (before after : Bytes) :
    scanFrom state (before ++ b :: after) =
      scanFrom state before ++ some (Char.ofNat b.toNat) :: scan after := by
  induction before generalizing state with
  | nil => simp [scanFrom, step_ascii h, scan]
  | cons c rest ih => simp [scanFrom, ih]

end Utf8

end LaunchOptions

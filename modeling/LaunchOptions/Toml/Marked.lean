import LaunchOptions.Toml.Moments
import LaunchOptions.Toml.Value

/-!
# Marked moments

A table can stand for a moment: its first key is a mark, and the string under that key gives the
moment. Nothing else in such a table counts.
-/

namespace LaunchOptions.Toml

/-- The key that marks a table as a moment. -/
def momentMark : Text := "$__toml_private_datetime".toList

/-- The moment that the value under the mark gives. -/
def markedMoment? : Value → Option Moment
  | .string t => Moment.ofText? t
  | _ => none

namespace Value

mutual

/-- The value in which each marked table is the moment that it stands for; `none` if one of them
gives no moment. -/
def resolve? : Value → Option Value
  | .array items => (resolveItems? items).map .array
  | .table [] => some (.table [])
  | .table ((key, v) :: rest) =>
    if key = momentMark then (markedMoment? v).map .moment
    else do return .table ((key, ← resolve? v) :: (← resolveEntries? rest))
  | .string t => some (.string t)
  | .integer n => some (.integer n)
  | .float written => some (.float written)
  | .boolean b => some (.boolean b)
  | .moment m => some (.moment m)

/-- The values in which marked tables are moments. -/
def resolveItems? : List Value → Option (List Value)
  | [] => some []
  | item :: rest => do return (← resolve? item) :: (← resolveItems? rest)

/-- The entries in whose values marked tables are moments. -/
def resolveEntries? : List (Text × Value) → Option (List (Text × Value))
  | [] => some []
  | (key, v) :: rest => do return (key, ← resolve? v) :: (← resolveEntries? rest)

end

end Value

end LaunchOptions.Toml

import LaunchOptions.Toml.Moment

/-!
# TOML values
-/

namespace LaunchOptions.Toml

/-- A value. Floats are kept as they are written. -/
inductive Value where
  | string (t : Text)
  | integer (n : Int)
  | float (written : Text)
  | boolean (b : Bool)
  | moment (m : Moment)
  | array (items : List Value)
  | table (entries : List (Text × Value))

/-- The value of a key of a table. -/
def Value.field? (key : Text) : Value → Option Value
  | .table entries => entries.lookup key
  | _ => none

/-- What is read off the beginning of a text, and the rest of it. -/
abbrev Read (α : Type) := Text → Option (α × Text)

end LaunchOptions.Toml

import LaunchOptions.Toml.Value

/-!
# Tables under construction

A TOML document adds to its tables bit by bit, and how a table came about decides what may still be
added. A header makes a table once, dotted keys go on only in tables that dotted keys began, and a
value is never added to.
-/

namespace LaunchOptions.Toml

/-- How a table came about. -/
inductive Origin where
  /-- By a header of its own, or as the whole document. -/
  | header
  /-- By a header of a table within it. -/
  | implied
  /-- By dotted keys. -/
  | dotted
  deriving DecidableEq, Repr

/-- What a key stands for in a table under construction. -/
inductive Item where
  | value (v : Value)
  | table (origin : Origin) (entries : List (Text × Item))
  /-- An array of tables, the last of which is the current one. -/
  | tables (all : List (List (Text × Item)))

/-- The entries of a table under construction. -/
abbrev Entries := List (Text × Item)

/-- A change to a table under construction; `none` if it is not allowed. -/
abbrev TableChange := Origin → Entries → Option Entries

namespace Entries

/-- Put an item under a key that is there already. -/
def replace (key : Text) (item : Item) (entries : Entries) : Entries :=
  entries.map fun e ↦ if e.1 = key then (key, item) else e

/-- Change the table under a key, which is made if it is not there. -/
def enter (dotted : Bool) (key : Text) (change : TableChange) (entries : Entries) :
    Option Entries :=
  match entries.lookup key with
  | none => do
    let origin : Origin := if dotted then .dotted else .implied
    return entries ++ [(key, .table origin (← change origin []))]
  | some (.value _) => none
  | some (.table origin inner) =>
    if dotted && origin = .header then none
    else do return replace key (.table origin (← change origin inner)) entries
  | some (.tables all) =>
    match all.getLast? with
    | none => none
    | some last => do
      return replace key (.tables (all.dropLast ++ [← change .header last])) entries

/-- Change the table at the end of a path of keys. -/
def within (dotted : Bool) : (path : List Text) → TableChange → TableChange
  | [], change, origin, entries => change origin entries
  | key :: path, change, _, entries => enter dotted key (within dotted path change) entries

/-- Put a value under a new key. -/
def add (key : Text) (v : Value) (entries : Entries) : Option Entries :=
  match entries.lookup key with
  | none => some (entries ++ [(key, .value v)])
  | some _ => none

/-- Put a value under a new key at the end of a path of dotted keys. -/
def assign (path : List Text) (v : Value) : TableChange :=
  match path.getLast? with
  | none => fun _ _ ↦ none
  | some key =>
    within true path.dropLast fun origin entries ↦
      if path.length ≠ 1 && origin ≠ .dotted then none else add key v entries

/-- Make the table of a header, or take one over that is only implied; either comes last among its
siblings. -/
def openTable (path : List Text) : TableChange :=
  match path.getLast? with
  | none => fun _ _ ↦ none
  | some key =>
    within false path.dropLast fun _ entries ↦
      match entries.lookup key with
      | none => some (entries ++ [(key, .table .header [])])
      | some (.table .implied inner) =>
        some (entries.filter (·.1 ≠ key) ++ [(key, .table .header inner)])
      | some _ => none

/-- Append a table to the array of a header. -/
def appendTable (path : List Text) : TableChange :=
  match path.getLast? with
  | none => fun _ _ ↦ none
  | some key =>
    within false path.dropLast fun _ entries ↦
      match entries.lookup key with
      | none => some (entries ++ [(key, .tables [[]])])
      | some (.tables all) => some (replace key (.tables (all ++ [[]])) entries)
      | some _ => none

end Entries

namespace Item

mutual

/-- The value of a finished item. -/
def toValue : Item → Value
  | .value v => v
  | .table _ entries => .table (toValues entries)
  | .tables all => .array (toTables all)

/-- The values of finished entries. -/
def toValues : Entries → List (Text × Value)
  | [] => []
  | (key, item) :: rest => (key, toValue item) :: toValues rest

/-- The values of finished tables. -/
def toTables : List Entries → List Value
  | [] => []
  | entries :: rest => .table (toValues entries) :: toTables rest

end

end Item

end LaunchOptions.Toml

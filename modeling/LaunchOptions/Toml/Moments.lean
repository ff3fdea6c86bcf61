import LaunchOptions.Toml.Moment
import LaunchOptions.Toml.Numbers

/-!
# How moments are written

A moment is written as a literal, or in a string that is marked as a moment. Both have one shape and
differ in how far some of the numbers may go.
-/

namespace LaunchOptions.Toml

/-- How far the numbers of a moment may go. -/
structure MomentLimits where
  hour : Nat
  offsetHour : Nat
  offsetMinute : Nat
  deriving DecidableEq, Repr

/-- The limits of a literal. -/
def MomentLimits.literal : MomentLimits := ⟨23, 23, 59⟩

/-- The limits of a moment in a string, where only the whole of an offset is limited. -/
def MomentLimits.quoted : MomentLimits := ⟨24, 99, 99⟩

/-- The most minutes of an offset, which are those of a day. -/
def maxOffset : Nat := 24 * 60

/-- Read exactly `count` digits. -/
def fixedDigits? (count : Nat) (t : Text) : Option (Nat × Text) :=
  let digits := t.take count
  if digits.length = count && digits.all Text.isDigit then
    some (Text.decimalValue digits, t.drop count)
  else none

/-- Read a number of two digits between two bounds. -/
def twoDigits? (low high : Nat) (t : Text) : Option (Nat × Text) := do
  let (n, rest) ← fixedDigits? 2 t
  if low ≤ n && n ≤ high then return (n, rest) else none

/-- Read a date. -/
def date? : Read Date := fun t ↦ do
  let (year, rest) ← fixedDigits? 4 t
  let (month, rest) ← twoDigits? 1 12 (← after? "-" rest)
  let (day, rest) ← twoDigits? 1 (daysInMonth year month) (← after? "-" rest)
  return (⟨year, month, day⟩, rest)

/-- The number of decimals of a second that count. -/
def secondDecimals : Nat := 9

/-- The nanoseconds in the decimals of a second; decimals that are too many do not count. -/
def nanoseconds (digits : Text) : Nat :=
  Text.decimalValue ((digits ++ List.replicate secondDecimals '0').take secondDecimals)

/-- Read the decimals of a second, if there are any, as nanoseconds. -/
def secondFraction : Text → Nat × Text
  | '.' :: rest =>
    let digits := rest.takeWhile Text.isDigit
    if digits.isEmpty then (0, '.' :: rest)
    else (nanoseconds digits, rest.dropWhile Text.isDigit)
  | t => (0, t)

/-- Read a time of day; a minute may have a leap second. -/
def time? (limits : MomentLimits) : Read TimeOfDay := fun t ↦ do
  let (hour, rest) ← twoDigits? 0 limits.hour t
  let (minute, rest) ← twoDigits? 0 59 (← after? ":" rest)
  let (second, rest) ← twoDigits? 0 60 (← after? ":" rest)
  let (nanosecond, rest) := secondFraction rest
  return (⟨hour, minute, second, nanosecond⟩, rest)

/-- Read hours and minutes of an offset, as minutes. -/
def offsetMinutes? (limits : MomentLimits) : Read Nat := fun t ↦ do
  let (hours, rest) ← twoDigits? 0 limits.offsetHour t
  let (minutes, rest) ← twoDigits? 0 limits.offsetMinute (← after? ":" rest)
  let all := 60 * hours + minutes
  if all ≤ maxOffset then return (all, rest) else none

/-- Read an offset. -/
def offset? (limits : MomentLimits) : Read Offset
  | 'Z' :: rest | 'z' :: rest => some (.zulu, rest)
  | '+' :: rest => (offsetMinutes? limits rest).map fun (n, rest) ↦ (.minutes n, rest)
  | '-' :: rest => (offsetMinutes? limits rest).map fun (n, rest) ↦ (.minutes (-n), rest)
  | _ => none

/-- Read a time and an offset behind a date, as far as they are there. -/
def timeOfDate (limits : MomentLimits) (date : Date) (t : Text) : Moment × Text :=
  let later : Option (Moment × Text) :=
    match t with
    | c :: rest =>
      if c = 'T' || c = 't' || c = ' ' then do
        let (time, rest) ← time? limits rest
        match offset? limits rest with
        | some (offset, rest) => return (⟨date, time, offset⟩, rest)
        | none => return (⟨date, time, none⟩, rest)
      else none
    | [] => none
  later.getD (⟨date, none, none⟩, t)

/-- Read a moment. -/
def moment? (limits : MomentLimits) : Read Moment := fun t ↦
  ((date? t).map fun (date, rest) ↦ timeOfDate limits date rest).or <|
    (time? limits t).map fun (time, rest) ↦ (⟨none, time, none⟩, rest)

/-- The moment that a whole string gives. -/
def Moment.ofText? (t : Text) : Option Moment :=
  match moment? .quoted t with
  | some (m, []) => some m
  | _ => none

end LaunchOptions.Toml

import LaunchOptions.Text.Decimal

/-!
# Moments

A date, a time of day, or both, and with both an offset from universal time. `Moment.text` writes
each moment in one form, whichever way it was written in a document.
-/

namespace LaunchOptions.Toml

/-- A day of the calendar. -/
structure Date where
  year : Nat
  month : Nat
  day : Nat
  deriving DecidableEq, Repr

/-- A time of day. -/
structure TimeOfDay where
  hour : Nat
  minute : Nat
  second : Nat
  nanosecond : Nat
  deriving DecidableEq, Repr

/-- How far a local time is from universal time. -/
inductive Offset where
  /-- Universal time itself, by its own letter. -/
  | zulu
  | minutes (count : Int)
  deriving DecidableEq, Repr

/-- A date, a time of day, or both. -/
structure Moment where
  date? : Option Date := none
  time? : Option TimeOfDay := none
  offset? : Option Offset := none
  deriving DecidableEq, Repr

/-- Whether a year has a leap day. -/
def isLeapYear (year : Nat) : Bool := year % 4 = 0 && (year % 100 ≠ 0 || year % 400 = 0)

/-- The number of days of a month. -/
def daysInMonth (year month : Nat) : Nat :=
  if month = 2 then (if isLeapYear year then 29 else 28)
  else if month = 4 || month = 6 || month = 9 || month = 11 then 30
  else 31

/-- A date has four digits of a year and two each of a month and a day. -/
def Date.text (date : Date) : Text :=
  Text.ofNatPadded 4 date.year ++ '-' :: Text.ofNatPadded 2 date.month ++
    '-' :: Text.ofNatPadded 2 date.day

/-- The decimals of a second: nine of them, without zeros at the end; none for a whole second. -/
def TimeOfDay.fractionText (time : TimeOfDay) : Text :=
  if time.nanosecond = 0 then []
  else '.' :: ((Text.ofNatPadded 9 time.nanosecond).reverse.dropWhile (· = '0')).reverse

/-- A time has two digits each of an hour, a minute and a second, and decimals of the second. -/
def TimeOfDay.text (time : TimeOfDay) : Text :=
  Text.ofNatPadded 2 time.hour ++ ':' :: Text.ofNatPadded 2 time.minute ++
    ':' :: Text.ofNatPadded 2 time.second ++ time.fractionText

/-- An offset is the letter `Z`, or a sign, hours and minutes. -/
def Offset.text : Offset → Text
  | .zulu => ['Z']
  | .minutes count =>
    let sign := if count < 0 then '-' else '+'
    sign :: Text.ofNatPadded 2 (count.natAbs / 60) ++ ':' :: Text.ofNatPadded 2 (count.natAbs % 60)

/-- The text of a moment. The letter `T` stands between a date and a time. -/
def Moment.text (m : Moment) : Text :=
  let date := (m.date?.map Date.text).getD []
  let time := (m.time?.map TimeOfDay.text).getD []
  let separator := if m.date?.isSome && m.time?.isSome then ['T'] else []
  date ++ separator ++ time ++ (m.offset?.map Offset.text).getD []

end LaunchOptions.Toml

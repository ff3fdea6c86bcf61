import LaunchOptions.OptionsError
import LaunchOptions.Settings.Load

/-!
# Reports of failures

What is written when a request fails. Invalid lines are reported one by one under their summary.
Any other failure is one message, followed by the causes behind it, and by the calls that led to it
if the environment asks for them.

Specification: `SPEC_FULL.md`, sections 6 (reports, exit codes) and 7.
-/

namespace LaunchOptions.CommandLine

/-- Why a request fails, by the stage in which it does. -/
inductive Failure where
  /-- The settings cannot be loaded. -/
  | settings (e : SettingsError)
  /-- The version of the runtime is not recognised. -/
  | version (e : OptionsError)
  /-- The options of a root cannot be assembled. -/
  | assembly (root : Path) (e : OptionsError)

/-- The parts of a report whose words come from elsewhere. -/
structure Wording where
  /-- What the reader of a format says of a text that it refuses. -/
  complaint : Settings.Format → Text → Text := fun _ _ ↦ []
  /-- The lines that show the calls which led to a failure; none if calls cannot be shown. -/
  calls : Failure → List Text := fun _ ↦ []

namespace Report

/-- The line that comes before the entries for a number of invalid lines.
`SPEC_FULL.md`, section 6, under invalid lines. -/
def summary (file : Path) (count : Nat) : Text :=
  "encountered [".toList ++ Text.ofNat count ++ "] error".toList ++
    OptionsError.pluralEnding count ++ " parsing [".toList ++ file.spelling ++ "]".toList

/-- The line for the invalid line `number` of a file, as the entry at `index`.
`SPEC_FULL.md`, section 6, under invalid lines. -/
def entryLine (file : Path) (index number : Nat) (t : Text) : Text :=
  ['['] ++ Text.ofNat index ++
    "]: encountered improperly formatted option in [".toList ++ file.spelling ++
    "] on line number [".toList ++ Text.ofNat number ++ "]: [".toList ++ t ++ [']']

/-- The lines for entries, counted from `index`. -/
def entryLines (file : Path) (index : Nat) : List (Nat × Text) → List Text
  | [] => []
  | (number, t) :: rest => entryLine file index number t :: entryLines file (index + 1) rest

/-- The report of the invalid lines of a file. -/
def invalidLines (file : Path) (lines : InvalidLines) : List Text :=
  summary file lines.size :: entryLines file 1 lines.toList

/-- The lines of a cause: the first one after a mark, and the others as far to the right. -/
def causeLines (mark cause : Text) : List Text :=
  match cause.pieces (· = '\n') with
  | [] => []
  | first :: rest => (mark ++ first) :: rest.map (List.replicate mark.length ' ' ++ ·)

/-- The mark of the cause at an index, where there are several. -/
def causeMark (index : Nat) : Text :=
  let number := Text.ofNat index
  List.replicate (5 - number.length) ' ' ++ number ++ ": ".toList

/-- The lines of a cause with its index. -/
def countedLines : Text × Nat → List Text
  | (cause, index) => causeLines (causeMark index) cause

/-- The causes behind a failure, under a heading of their own. A cause that is the only one has no
number. -/
def causes : List Text → List Text
  | [] => []
  | [cause] => [] :: "Caused by:".toList :: causeLines (List.replicate 4 ' ') cause
  | several => [] :: "Caused by:".toList :: several.zipIdx.flatMap countedLines

/-- The calls that led to a failure, under a heading of their own. -/
def calls : List Text → List Text
  | [] => []
  | lines => [] :: "Stack backtrace:".toList :: lines

end Report

namespace Failure

/-- The text of a failure. -/
def message : Failure → Text
  | .settings e => e.message
  | .version e => e.message
  | .assembly root _ => "Failed assembling options from ".toList ++ root.spelling

/-- The causes behind a failure, each behind the one before it. -/
def causes (wording : Wording) : Failure → List Text
  | .settings e => e.causes wording.complaint
  | .version e => e.causes
  | .assembly _ e => e.message :: e.causes

/-- The report of a failure but for the calls that led to it. -/
def account (wording : Wording) : Failure → List Text
  | .assembly _ (.invalidLines file lines) => Report.invalidLines file lines
  | failure => ("Error: ".toList ++ failure.message) :: Report.causes (failure.causes wording)

/-- The calls that led to a failure, as they are reported. Invalid lines are no failure of the
program, so nothing is said of calls. -/
def backtrace (wording : Wording) : Failure → List Text
  | .assembly _ (.invalidLines _ _) => []
  | failure => Report.calls (wording.calls failure)

/-- The report of a failure, with the calls that led to it if the environment asks for them.
`SPEC_FULL.md`, section 6: the error chain on the standard error. -/
def report (environment : Environment) (wording : Wording) (failure : Failure) : List Text :=
  failure.account wording ++ if environment.wantsBacktrace then failure.backtrace wording else []

end Failure

end LaunchOptions.CommandLine

import LaunchOptions.CommandLine.Help
import LaunchOptions.CommandLine.Request

/-!
# Usage errors

The faults of a command line and their wording.

Specification: `SPEC_FULL.md`, section 6.
-/

namespace LaunchOptions.CommandLine

/-- A fault of a command line. -/
inductive UsageError where
  /-- An option without meaning, or one path too many. -/
  | unexpectedArgument (shown : Text)
  /-- A value that is not given, or is empty where it must not be. -/
  | missingValue (slot : Slot)
  /-- A value for a switch. -/
  | unexpectedValue (switch : Switch) (value : Text)
  /-- An option that is given again. -/
  | repeated (shown : Text)
  /-- A text that is no binding. -/
  | invalidBinding (fault : BindingFault) (value : Text)
  /-- No path is given. -/
  | missingPath

/-- Why a text is no binding, in words. -/
def BindingFault.message (value : Text) : BindingFault → Text
  | .noEqualsSign => "expected KEY=VALUE, got '".toList ++ value ++ ['\'']
  | .emptyKey => "empty placeholder name in '".toList ++ value ++ ['\'']

namespace UsageError

open Terminal

/-- The text of a fault, in styles. -/
def message : UsageError → Text
  | .unexpectedArgument shown =>
    "unexpected argument '".toList ++ Style.invalid.apply shown ++ "' found".toList
  | .missingValue slot =>
    "a value is required for '".toList ++ Style.invalid.apply slot.shown ++
      "' but none was supplied".toList
  | .unexpectedValue switch value =>
    "unexpected value '".toList ++ Style.invalid.apply value ++ "' for '".toList ++
      Style.literal.apply switch.shown ++ "' found; no more were expected".toList
  | .repeated shown =>
    "the argument '".toList ++ Style.invalid.apply shown ++
      "' cannot be used multiple times".toList
  | .invalidBinding fault value =>
    "invalid value '".toList ++ Style.invalid.apply value ++ "' for '".toList ++
      Style.literal.apply Slot.substitute.shown ++ "': ".toList ++ fault.message value
  | .missingPath =>
    "the following required arguments were not provided:\n  ".toList ++
      Style.valid.apply Slot.path.shown

/-- Whether a fault is one of the shape of a command line, so that the shape is shown with it. -/
def showsUsage : UsageError → Bool
  | .invalidBinding _ _ => false
  | _ => true

/-- The report of a fault: its text, the shape of a command line if that helps, and a hint. -/
def report (e : UsageError) : Text :=
  Style.heading.apply "error:".toList ++ ' ' :: e.message ++ ['\n', '\n'] ++
    (if e.showsUsage then Help.usage ++ ['\n'] else []) ++ Help.hint

end UsageError

end LaunchOptions.CommandLine

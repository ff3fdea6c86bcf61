import LaunchOptions.Path
import LaunchOptions.Text.WhiteSpace

/-!
# Requests

What a command line can ask for, and the vocabulary it is written in: switches stand alone, and
slots take a value.

Specification: `SPEC_FULL.md`, section 6.
-/

namespace LaunchOptions.CommandLine

/-- A request to assemble options. -/
structure Request where
  /-- The configuration root. -/
  path : Path
  /-- The version of the runtime. -/
  javaVersion : Option Text := none
  /-- Placeholders and their values, in the order in which they are given. -/
  bindings : List (Text × Text) := []
  /-- The file with settings. -/
  config : Option Path := none
  /-- Whether to log more; this does not change what is assembled. -/
  verbose : Bool := false

/-- What a command line asks for. -/
inductive Invocation where
  | run (request : Request)
  | help
  | version

/-- An option that stands alone. -/
inductive Switch where
  | verbose
  | help
  | version
  deriving DecidableEq, Repr

/-- What takes a value. -/
inductive Slot where
  /-- The one argument without a name. -/
  | path
  | javaVersion
  | substitute
  | config
  deriving DecidableEq, Repr

namespace Switch

/-- All switches. -/
def all : List Switch := [.verbose, .help, .version]

/-- The name that follows two dashes. -/
def longName : Switch → Text
  | .verbose => "verbose".toList
  | .help => "help".toList
  | .version => "version".toList

/-- The letter that follows one dash. -/
def letter : Switch → Char
  | .verbose => 'v'
  | .help => 'h'
  | .version => 'V'

/-- How messages show a switch. -/
def shown (switch : Switch) : Text := '-' :: '-' :: switch.longName

end Switch

namespace Slot

/-- All slots. -/
def all : List Slot := [.path, .javaVersion, .substitute, .config]

/-- The name that follows two dashes. -/
def longName? : Slot → Option Text
  | .path => none
  | .javaVersion => some "java-version".toList
  | .substitute => some "substitute".toList
  | .config => some "config".toList

/-- The letter that follows one dash. -/
def letter? : Slot → Option Char
  | .path | .javaVersion => none
  | .substitute => some 's'
  | .config => some 'c'

/-- What messages call the value. -/
def valueName : Slot → Text
  | .path => "PATH".toList
  | .javaVersion => "VERSION".toList
  | .substitute => "KEY=VALUE".toList
  | .config => "FILE".toList

/-- How messages show a slot. -/
def shown (slot : Slot) : Text :=
  let value := '<' :: slot.valueName ++ ['>']
  match slot.longName? with
  | none => value
  | some name => '-' :: '-' :: name ++ ' ' :: value

end Slot

/-- Why a text is no binding of a placeholder. -/
inductive BindingFault where
  | noEqualsSign
  | emptyKey
  deriving DecidableEq, Repr

/-- The placeholder and the value in a text. The key ends at the first `=`, and white space around
it does not count. -/
def binding (t : Text) : Except BindingFault (Text × Text) :=
  match t.dropWhile (· ≠ '=') with
  | [] => .error .noEqualsSign
  | _ :: value =>
    let key := Text.trim (t.takeWhile (· ≠ '='))
    if key = [] then .error .emptyKey else .ok (key, value)

end LaunchOptions.CommandLine

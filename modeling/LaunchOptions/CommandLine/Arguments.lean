import LaunchOptions.CommandLine.Item
import LaunchOptions.CommandLine.UsageError

/-!
# Arguments

A command line is read from left to right, and the first fault ends the reading. A value that is an
argument of its own is looked at only when the next option or operand comes, or at the end; a fault
of that next argument as such comes first.

Specification: `SPEC_FULL.md`, section 6.
-/

namespace LaunchOptions.CommandLine

/-- What is known after some items. -/
structure Progress where
  path : Option Path := none
  javaVersion : Option Text := none
  bindings : List (Text × Text) := []
  config : Option Path := none
  verbose : Bool := false
  /-- A slot that is not filled yet, with its value once that is known. -/
  pending : Option (Slot × Option Text) := none

namespace Progress

/-- Fill a slot. -/
def fill (progress : Progress) (slot : Slot) (value : Text) : Except UsageError Progress :=
  match slot with
  | .path =>
    if value = [] then .error (.missingValue slot)
    else .ok { progress with path := some ⟨value⟩ }
  | .javaVersion =>
    if progress.javaVersion.isSome then .error (.repeated slot.shown)
    else .ok { progress with javaVersion := some value }
  | .substitute =>
    match binding value with
    | .ok pair => .ok { progress with bindings := progress.bindings ++ [pair] }
    | .error fault => .error (.invalidBinding fault value)
  | .config =>
    if progress.config.isSome then .error (.repeated slot.shown)
    else if value = [] then .error (.missingValue slot)
    else .ok { progress with config := some ⟨value⟩ }

/-- Fill the slot that is waiting. -/
def settle (progress : Progress) : Except UsageError Progress :=
  match progress.pending with
  | none => .ok progress
  | some (slot, none) => .error (.missingValue slot)
  | some (slot, some value) => { progress with pending := none }.fill slot value

/-- Whether an operand has come. -/
def hasOperand (progress : Progress) : Bool :=
  progress.path.isSome || progress.pending.map Prod.fst = some .path

/-- Take an operand. -/
def operand (progress : Progress) (t : Text) : Except UsageError Progress :=
  if progress.hasOperand then .error (.unexpectedArgument t)
  else return { ← progress.settle with pending := some (.path, some t) }

/-- Take a word, which is the value of a slot that waits for one. -/
def word (progress : Progress) (t : Text) : Except UsageError Progress :=
  match progress.pending with
  | some (slot, none) => .ok { progress with pending := some (slot, some t) }
  | _ => progress.operand t

/-- Take a named slot. -/
def named (progress : Progress) (slot : Slot) (value : Option Text) :
    Except UsageError Progress := do
  let progress ← progress.settle
  match value with
  | none => return { progress with pending := some (slot, none) }
  | some value => progress.fill slot value

/-- Take the switch for more logging. -/
def beVerbose (progress : Progress) : Except UsageError Progress :=
  if progress.verbose then .error (.repeated Switch.verbose.shown)
  else .ok { progress with verbose := true }

/-- The request of a whole command line. -/
def request (progress : Progress) : Except UsageError Request := do
  let progress ← progress.settle
  match progress.path with
  | none => .error .missingPath
  | some path =>
    return { path, javaVersion := progress.javaVersion, bindings := progress.bindings,
             config := progress.config, verbose := progress.verbose }

/-- What the items after some progress ask for. -/
def invocation (progress : Progress) : List Item → Except UsageError Invocation
  | [] => return .run (← progress.request)
  | .switch .verbose :: rest => do (← (← progress.settle).beVerbose).invocation rest
  | .switch .help :: _ => do
    let _ ← progress.settle
    return .help
  | .switch .version :: _ => do
    let _ ← progress.settle
    return .version
  | .switchWithValue switch value :: _ => .error (.unexpectedValue switch value)
  | .slot slot value :: rest => do (← progress.named slot value).invocation rest
  | .word t :: rest => do (← progress.word t).invocation rest
  | .operand t :: rest => do (← progress.operand t).invocation rest
  | .unknown shown :: _ => .error (.unexpectedArgument shown)

end Progress

/-- What some arguments ask for. -/
def Invocation.ofArguments (arguments : List Text) : Except UsageError Invocation :=
  ({} : Progress).invocation (Item.ofArguments arguments)

end LaunchOptions.CommandLine

import LaunchOptions.Assembly
import LaunchOptions.CommandLine.Arguments
import LaunchOptions.CommandLine.Help
import LaunchOptions.CommandLine.Report

/-!
# Runs

A request passes three stages, of which the first that fails decides: settings are loaded, the
version of the runtime is recognised, and options are assembled. What is written and the exit code
follow from that alone.

Specification: `SPEC_FULL.md`, section 6 (command line, exit codes).
-/

namespace LaunchOptions.CommandLine

/-- What a run leaves behind. -/
structure Outcome where
  code : UInt8
  stdout : Text := []
  stderr : Text := []
  deriving DecidableEq, Repr

namespace Request

/-- The variable that names the version of the runtime. -/
def versionVariable : Text := "JAVA_VERSION".toList

/-- The version of the runtime, as it is written: the request comes first, then the environment,
then the settings.
`SPEC_FULL.md`, section 4.6, under precedence. -/
def versionText (request : Request) (environment : Environment) (settings : Settings) : Text :=
  ((request.javaVersion.or (environment.get? versionVariable)).or settings.javaVersion).getD []

/-- What placeholders are bound to. The bindings of the request come after those of the environment,
so they stay.
`SPEC_FULL.md`, section 6, under substitutions. -/
def placeholders (request : Request) (environment : Environment) (settings : Settings) :
    Bindings :=
  .ofList (environment.bindings settings.substitutionVariables ++ request.bindings)

/-- What to assemble for a version. -/
def plan (request : Request) (environment : Environment) (settings : Settings) (version : Nat) :
    Assembly where
  root := request.path
  version := version
  overrides := environment.overrides settings.overrideVariables
  bindings := request.placeholders environment settings

/-- The options that are requested. -/
def options (request : Request) (view : FileView) (environment : Environment) :
    Except Failure (List Text) :=
  match Settings.load view request.config with
  | .error e => .error (.settings e)
  | .ok settings =>
    match RuntimeVersion.major (request.versionText environment settings) with
    | .error e => .error (.version e)
    | .ok version =>
      match (request.plan environment settings version).build view with
      | .error e => .error (.assembly request.path e)
      | .ok options => .ok options

end Request

namespace Outcome

/-- Lines, each with its end. -/
def lines (ts : List Text) : Text := ts.flatMap (· ++ ['\n'])

/-- Options go to the standard output on one line, and a failure goes to the standard error.
`SPEC_FULL.md`, section 6, under success and failures. -/
def ofOptions (environment : Environment) (wording : Wording) :
    Except Failure (List Text) → Outcome
  | .ok options => { code := 0, stdout := Text.joinWith [' '] options ++ ['\n'] }
  | .error failure => { code := 1, stderr := lines (failure.report environment wording) }

/-- The report of a fault of the command line goes to the standard error. -/
def ofUsageError (environment : Environment) (e : UsageError) : Outcome where
  code := 2
  stderr := Terminal.written environment e.report

end Outcome

/-- The outcome of what a command line asks for. -/
def Invocation.outcome (view : FileView) (environment : Environment) (wording : Wording) :
    Invocation → Outcome
  | .run request => .ofOptions environment wording (request.options view environment)
  | .help => { code := 0, stdout := Help.full }
  | .version => { code := 0, stdout := Help.version }

/-- Run the program with some arguments. -/
def run (view : FileView) (environment : Environment) (arguments : List Text)
    (wording : Wording := {}) : Outcome :=
  match Invocation.ofArguments arguments with
  | .ok invocation => invocation.outcome view environment wording
  | .error e => .ofUsageError environment e

end LaunchOptions.CommandLine

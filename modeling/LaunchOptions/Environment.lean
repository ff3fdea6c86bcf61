import LaunchOptions.OrderedMap
import LaunchOptions.Text.WhiteSpace

/-!
# Environment variables

Options can also come from environment variables. The values of some variables, cut into words,
are appended to the options of the files as they are. Two more variables matter when a run fails:
they tell whether the calls that led to the failure are reported.

Specification: `SPEC_FULL.md`, section 4.4.
-/

namespace LaunchOptions

/-- The values of environment variables. -/
structure Environment where
  get? : Text → Option Text

namespace Environment

/-- The environment of some variables and their values; the last value of a variable stays. -/
def ofList (values : List (Text × Text)) : Environment :=
  ⟨fun name ↦ values.reverse.lookup name⟩

/-- The value in an entry `name=value` of a name. -/
def entryValue? (name entry : Text) : Option Text :=
  let beginning := name ++ ['=']
  if beginning.isPrefixOf entry then some (entry.drop beginning.length) else none

/-- The environment of a process that is given some variables and their values; the last value of a
variable stays. The process holds them as entries `name=value` by ascending name and takes the first
one that begins with a name and `=`, so a name with an `=` reaches into a value. No variable has the
empty name. -/
def ofProcess (values : List (Text × Text)) : Environment :=
  let entries := (OrderedMap.ofList values).toList.map fun (name, value) ↦ name ++ '=' :: value
  ⟨fun name ↦ if name.isEmpty then none else entries.findSome? (entryValue? name)⟩

/-- The words in the values of the variables that are set, in the order of the names.
`SPEC_FULL.md`, section 4.4. -/
def overrides (environment : Environment) (names : List Text) : List Text :=
  (names.filterMap environment.get?).flatMap Text.words

/-- The variables that are read for options unless settings name others. -/
def defaultOverrideNames : List Text :=
  ["ES_JAVA_OPTS", "JAVA_OPTS", "JVM_OPTS", "JAVA_OPTIONS", "JVM_OPTIONS"].map String.toList

/-- The variables that are set, each with its value, in the order of the names.
`SPEC_FULL.md`, section 4.6: the bindings of placeholders to variables. -/
def bindings (environment : Environment) (names : List Text) : List (Text × Text) :=
  names.filterMap (fun name ↦ (environment.get? name).map (name, ·))

/-- The variables that tell whether a failure is reported with the calls that led to it. The first
one that is set decides. -/
def backtraceVariables : List Text := ["RUST_LIB_BACKTRACE", "RUST_BACKTRACE"].map String.toList

/-- Whether a failure is reported with the calls that led to it; the value `0` refuses that. -/
def wantsBacktrace (environment : Environment) : Bool :=
  (backtraceVariables.findSome? environment.get?).any (· ≠ ['0'])

end Environment

end LaunchOptions

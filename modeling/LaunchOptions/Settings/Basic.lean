import LaunchOptions.Environment

/-!
# Settings

Settings say which environment variables matter to an assembly, and which runtime version to assume
when nothing else names one. Each setting that is not given keeps its default.

`Reading.settings?` builds settings from keys and values, for any format that can tell texts, lists
and the absence of a value apart.

Specification: `SPEC_FULL.md`, section 4.6.
-/

namespace LaunchOptions

/-- What an assembly takes from the environment, and the version it falls back on.
`SPEC_FULL.md`, section 4.6, with the defaults of each setting. -/
structure Settings where
  /-- The variables whose words are appended as options. -/
  overrideVariables : List Text := Environment.defaultOverrideNames
  /-- The variables that bind the placeholders of the same names. -/
  substitutionVariables : List Text := ["ES_PATH_CONF".toList]
  /-- The version of the runtime, as it is written. -/
  javaVersion : Option Text := none
  deriving DecidableEq, Repr

/-- One of the settings. -/
inductive Setting where
  | overrideVariables
  | substitutionVariables
  | javaVersion
  deriving DecidableEq, Repr

namespace Setting

/-- The settings in their order. -/
def all : List Setting := [.overrideVariables, .substitutionVariables, .javaVersion]

/-- The key that a setting is written under. -/
def key : Setting → Text
  | .overrideVariables => "override_env_vars".toList
  | .substitutionVariables => "substitution_env_vars".toList
  | .javaVersion => "java_version".toList

/-- The setting that is written under a key. -/
def ofKey? (k : Text) : Option Setting := all.find? (fun setting ↦ setting.key = k)

/-- The key of a setting stands for it. -/
theorem ofKey?_key (setting : Setting) : ofKey? setting.key = some setting := by
  cases setting <;> decide

end Setting

namespace Settings

/-- The key whose value, where it is given, holds the settings in place of the document. -/
def sectionKey : Text := "jvm-options".toList

/-- How a format writes the values of settings. -/
structure Reading (Value : Type) where
  /-- The text that a value is. -/
  text? : Value → Option Text
  /-- The items of the list that a value is. -/
  items? : Value → Option (List Value)
  /-- Whether a value stands for no value. -/
  isAbsent : Value → Bool

namespace Reading

variable {Value : Type}

/-- A list of names. -/
def names? (reading : Reading Value) (v : Value) : Option (List Text) := do
  (← reading.items? v).mapM reading.text?

/-- A text or its absence. -/
def optional? (reading : Reading Value) (v : Value) : Option (Option Text) :=
  if reading.isAbsent v then some none else (reading.text? v).map some

/-- Settings with one of them given by a value. -/
def give? (reading : Reading Value) (settings : Settings) (v : Value) :
    Setting → Option Settings
  | .overrideVariables =>
    (reading.names? v).map fun names ↦ { settings with overrideVariables := names }
  | .substitutionVariables =>
    (reading.names? v).map fun names ↦ { settings with substitutionVariables := names }
  | .javaVersion =>
    (reading.optional? v).map fun version ↦ { settings with javaVersion := version }

/-- The settings of some entries. Each key has to be that of a setting and occurs once, and each
value has to fit its setting. -/
def settings? (reading : Reading Value) (entries : List (Text × Value)) : Option Settings :=
  if (entries.map Prod.fst).Nodup then
    entries.foldlM (fun settings e ↦ do reading.give? settings e.2 (← Setting.ofKey? e.1)) {}
  else none

end Reading

end Settings

end LaunchOptions

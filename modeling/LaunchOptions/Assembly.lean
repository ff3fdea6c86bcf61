import LaunchOptions.Discovery
import LaunchOptions.ParseOutcome
import LaunchOptions.Placeholder
import LaunchOptions.RuntimeVersion

/-!
# Assembly of options

The options files of a root are read in order, up to the first one that cannot be read or holds an
invalid line. Override tokens follow the options of the files, and placeholders are replaced last.

Specification: `SPEC_FULL.md`, section 4.2 (processing).
-/

namespace LaunchOptions

/-- The outcome of parsing one file. -/
def ParseOutcome.ofFile (view : FileView) (version : Nat) (file : Path) :
    Except OptionsError ParseOutcome :=
  match view.read file with
  | .ok content => .ok (.ofBytes version content)
  | .error cause => .error (.unreadable file cause)

namespace Assembly

/-- The options of one file, all of whose lines have to have a reading. -/
def fileOptions (view : FileView) (version : Nat) (file : Path) : Except OptionsError (List Text) :=
  match ParseOutcome.ofFile view version file with
  | .error e => .error e
  | .ok outcome =>
    if outcome.isValid then .ok outcome.options
    else .error (.invalidLines file outcome.invalid)

/-- The options of some files, one after another; the first file that fails decides. -/
def filesOptions (view : FileView) (version : Nat) : List Path → Except OptionsError (List Text)
  | [] => .ok []
  | file :: rest =>
    match fileOptions view version file with
    | .error e => .error e
    | .ok options => (filesOptions view version rest).map (options ++ ·)

/-- The options of the files of a root. -/
def readOptions (view : FileView) (root : Path) (version : Nat) : Except OptionsError (List Text) :=
  filesOptions view version (Discovery.optionsFiles view root)

end Assembly

/-- A plan of what to assemble. -/
structure Assembly where
  /-- The configuration root. -/
  root : Path
  /-- The major version that gates are tested with. -/
  version : Nat := RuntimeVersion.fallbackMajor
  /-- Options to append. -/
  overrides : List Text := []
  /-- The values of placeholders. -/
  bindings : Bindings := .empty

namespace Assembly

/-- A change to a plan. -/
inductive Change where
  /-- Assemble for another version. -/
  | version (version : Nat)
  /-- Append these options and no others. -/
  | overrides (tokens : List Text)
  /-- Bind these placeholders and no others. -/
  | bindings (bindings : Bindings)
  /-- Bind one more placeholder, or bind it anew. -/
  | bind (key value : Text)

/-- The plan after a change. -/
def apply (plan : Assembly) : Change → Assembly
  | .version version => { plan with version }
  | .overrides overrides => { plan with overrides }
  | .bindings bindings => { plan with bindings }
  | .bind key value => { plan with bindings := plan.bindings.insert key value }

/-- The plan after some changes, one after another. -/
def applyAll (plan : Assembly) (changes : List Change) : Assembly :=
  changes.foldl apply plan

/-- The options of a plan. -/
def build (plan : Assembly) (view : FileView) : Except OptionsError (List Text) :=
  (readOptions view plan.root plan.version).map fun options ↦
    (options ++ plan.overrides).map (Placeholder.substitute plan.bindings)

end Assembly

end LaunchOptions

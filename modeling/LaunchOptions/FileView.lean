import LaunchOptions.OptionsError
import LaunchOptions.Text.Utf8

/-!
# What can be seen of a file system

Options are assembled from three questions about paths. A view answers them, for a file tree or
for the disk of a machine; symbolic links are followed in every answer.

Specification: `SPEC_FULL.md`, section 4.2 (discovery).
-/

namespace LaunchOptions

/-- The kind of what a path leads to. -/
inductive FileKind where
  | regular
  | directory
  | other
  deriving DecidableEq, Repr

/-- The answers of a file system to questions about paths. -/
structure FileView where
  /-- What the path leads to, if it leads anywhere. -/
  kind? : Path → Option FileKind
  /-- The content of a file. -/
  read : Path → Except ReadFailure Bytes
  /-- The names in a directory, each once, in no particular order. -/
  names : Path → List Text

namespace FileView

/-- The view of a file system that holds nothing. -/
def nothing : FileView := ⟨fun _ ↦ none, fun _ ↦ .error .notFound, fun _ ↦ []⟩

/-- Whether the path leads to a directory. -/
def isDirectory (view : FileView) (p : Path) : Bool := view.kind? p = some .directory

/-- Whether the path leads to a regular file. -/
def isRegular (view : FileView) (p : Path) : Bool := view.kind? p = some .regular

end FileView

end LaunchOptions

import LaunchOptions.OrderedMap
import LaunchOptions.Path
import LaunchOptions.Text.Decimal

/-!
# Failures of options processing

The causes that end an assembly of options, and their wording.

Specification: `SPEC_FULL.md`, section 7.
-/

namespace LaunchOptions

/-- A failure of the operating system: its number, and what the system says of it. -/
structure SystemError where
  number : Nat
  words : Text
  deriving DecidableEq, Repr

/-- Why a file cannot be read. -/
inductive ReadFailure where
  /-- A component of the path does not exist. -/
  | notFound
  /-- The path leads to a directory. -/
  | isDirectory
  /-- A component that has to be a directory is none. -/
  | notDirectory
  /-- The path leads through too many symbolic links. -/
  | filesystemLoop
  /-- A name, or the whole path, is too long. -/
  | invalidFilename
  /-- Any other reason that the operating system gives. -/
  | other (e : SystemError)
  deriving DecidableEq, Repr

/-- The failure of the operating system that is behind one to read. -/
def ReadFailure.systemError : ReadFailure → SystemError
  | .notFound => ⟨2, "No such file or directory".toList⟩
  | .isDirectory => ⟨21, "Is a directory".toList⟩
  | .notDirectory => ⟨20, "Not a directory".toList⟩
  | .filesystemLoop => ⟨40, "Too many levels of symbolic links".toList⟩
  | .invalidFilename => ⟨36, "File name too long".toList⟩
  | .other e => e

/-- The text of a failure to read. -/
def ReadFailure.message (failure : ReadFailure) : Text :=
  let e := failure.systemError
  e.words ++ " (os error ".toList ++ Text.ofNat e.number ++ [')']

/-- The invalid lines of a file by line number. -/
abbrev InvalidLines := OrderedMap Nat Text

/-- Why options cannot be assembled. -/
inductive OptionsError where
  /-- Some lines of a file have no reading. -/
  | invalidLines (file : Path) (lines : InvalidLines)
  /-- A file cannot be read. -/
  | unreadable (file : Path) (cause : ReadFailure)
  /-- A runtime version has no major version; white space around it is left out. -/
  | unrecognisedVersion (version : Text)

namespace OptionsError

/-- The ending of the word "error" for a count. -/
def pluralEnding (count : Nat) : Text :=
  if count = 1 then [] else ['s']

/-- The text of a failure. -/
def message : OptionsError → Text
  | .invalidLines file lines =>
    "encountered [".toList ++ Text.ofNat lines.size ++ "] error".toList ++
      pluralEnding lines.size ++ " parsing [".toList ++ file.spelling ++ "]".toList
  | .unreadable file _ => "failed reading options file ".toList ++ file.spelling
  | .unrecognisedVersion version =>
    "unrecognised java version string '".toList ++ version ++ "'".toList

/-- The causes behind a failure, each behind the one before it. -/
def causes : OptionsError → List Text
  | .unreadable _ cause => [cause.message]
  | .invalidLines _ _ | .unrecognisedVersion _ => []

end OptionsError

end LaunchOptions

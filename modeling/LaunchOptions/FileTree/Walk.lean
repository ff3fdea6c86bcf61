import LaunchOptions.FileTree.Basic
import LaunchOptions.FileView

/-!
# Walking a path through a file tree

A path is walked piece by piece from the root or the working directory. Each piece needs a
directory to be looked up in; a symbolic link puts its own pieces before the remaining ones.
`FileTree.view` answers the questions of a `FileView` by walking.
-/

namespace LaunchOptions

/-- One step of a walk. -/
inductive WalkStep where
  /-- Stay in the directory. -/
  | stay
  /-- Go to the directory above; the root is above itself. -/
  | up
  /-- Go to an entry. -/
  | enter (name : Text)
  deriving DecidableEq, Repr

namespace FileTree

/-- The longest name of an entry, in bytes. -/
def maxName : Nat := 255

/-- The longest path, in bytes. -/
def maxPath : Nat := 4095

/-- The number of symbolic links that one walk may follow. -/
def maxLinks : Nat := 40

/-- The steps of a path. Separators that follow each other count once; one at the end asks for a
directory, as a `.` does. -/
def steps (p : Path) : List WalkStep :=
  let named := (p.pieces.filter (fun s ↦ !s.isEmpty)).map fun s ↦
    if s = ['.'] then .stay else if s = ['.', '.'] then .up else .enter s
  if p.spelling.getLast? = some '/' then named ++ [.stay] else named

/-- The location where a path starts, given the one that relative paths start from. -/
def startOf (p : Path) (relative : Location) : Location :=
  if p.isAbsolute then [] else relative

/-- The location that some steps lead to from a location, following at most `links` links. -/
def walk (tree : FileTree) (links : Nat) (at_ : Location) (remaining : List WalkStep) :
    Except ReadFailure Location :=
  match remaining with
  | [] => .ok at_
  | step :: rest =>
    match tree.node? at_ with
    | some (.directory entries) =>
      match step with
      | .stay => walk tree links at_ rest
      | .up => walk tree links at_.dropLast rest
      | .enter name =>
        if maxName < (Utf8.encode name).length then .error .invalidFilename
        else
          match FileNode.entry? name entries with
          | none => .error .notFound
          | some (.link target) =>
            match links with
            | 0 => .error .filesystemLoop
            | links + 1 =>
              if target.spelling.isEmpty then .error .notFound
              else walk tree links (startOf target at_) (steps target ++ rest)
          | some _ => walk tree links (at_ ++ [name]) rest
    | some _ => .error .notDirectory
    | none => .error .notFound
termination_by (links, remaining.length)

/-- The location that a path leads to. -/
def resolve (tree : FileTree) (p : Path) : Except ReadFailure Location :=
  if p.spelling.isEmpty then .error .notFound
  else if maxPath < (Utf8.encode p.spelling).length then .error .invalidFilename
  else walk tree maxLinks (startOf p tree.workingDirectory) (steps p)

/-- The node that a path leads to. -/
def lookup (tree : FileTree) (p : Path) : Except ReadFailure FileNode :=
  match resolve tree p with
  | .error cause => .error cause
  | .ok location =>
    match tree.node? location with
    | some node => .ok node
    | none => .error .notFound

/-- The content of the file that a path leads to. -/
def read (tree : FileTree) (p : Path) : Except ReadFailure Bytes :=
  match lookup tree p with
  | .error cause => .error cause
  | .ok (.file content) => .ok content
  | .ok (.directory _) => .error .isDirectory
  | .ok (.link _) => .error .filesystemLoop

/-- The kind of what a path leads to. -/
def kind? (tree : FileTree) (p : Path) : Option FileKind :=
  match lookup tree p with
  | .ok (.file _) => some .regular
  | .ok (.directory _) => some .directory
  | .ok (.link _) | .error _ => none

/-- The names in the directory that a path leads to. -/
def names (tree : FileTree) (p : Path) : List Text :=
  match lookup tree p with
  | .ok (.directory entries) => entries.map Prod.fst
  | _ => []

/-- What can be seen of a file tree. -/
def view (tree : FileTree) : FileView := ⟨tree.kind?, tree.read, tree.names⟩

end FileTree

end LaunchOptions

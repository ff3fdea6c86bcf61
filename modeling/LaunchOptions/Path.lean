import LaunchOptions.Text.Basic

/-!
# Paths

A path keeps the spelling it was given, and every path made from it keeps that spelling as its
beginning. What a path means is read off its components, in which repeated separators, inner `.`
components and separators at the end do not count.

Specification: `SPEC_FULL.md`, section 4.2 (discovery).
-/

namespace LaunchOptions

/-- A path as it is spelled. -/
structure Path where
  spelling : Text
  deriving DecidableEq, Repr

namespace Path

/-- A component of a path. -/
inductive Component where
  /-- The separator that begins an absolute path. -/
  | root
  /-- A `.` that begins a relative path. -/
  | here
  /-- A `..`. -/
  | up
  /-- A name within a directory. -/
  | name (n : Text)
  deriving DecidableEq, Repr

/-- The separator. -/
def isSeparator (c : Char) : Bool := c = '/'

/-- What the separators leave of the spelling. -/
def pieces (p : Path) : List Text := p.spelling.pieces isSeparator

/-- Whether the path starts at the root of the file system. -/
def isAbsolute (p : Path) : Bool := p.spelling.head? = some '/'

/-- Pieces that name nothing: between two separators, or a `.`. -/
def isIdle (piece : Text) : Bool := piece = [] || piece = ['.']

/-- A piece that is not idle, as a component. -/
def ofPiece (piece : Text) : Component :=
  if piece = ['.', '.'] then .up else .name piece

/-- The components of a path. -/
def components (p : Path) : List Component :=
  (if p.isAbsolute then [.root] else if p.pieces.head? = some ['.'] then [.here] else []) ++
    ((p.pieces.filter (fun s ↦ !isIdle s)).map ofPiece)

/-- A name below a path: one separator comes between, unless the path ends in one or is empty. -/
def join (p : Path) (name : Text) : Path :=
  match p.spelling.getLast? with
  | none => ⟨name⟩
  | some c => if isSeparator c then ⟨p.spelling ++ name⟩ else ⟨p.spelling ++ '/' :: name⟩

/-- The path without its last piece and the idle pieces before it; what begins the path stays. -/
def parent (p : Path) : Path :=
  match p.pieces.dropLast with
  | [] => ⟨[]⟩
  | first :: more =>
    let kept := first :: (more.reverse.dropWhile isIdle).reverse
    if kept = [[]] then ⟨['/']⟩ else ⟨Text.joinWith ['/'] kept⟩

/-- The last component, if it is a name. -/
def fileName? (p : Path) : Option Text :=
  match p.components.getLast? with
  | some (.name n) => some n
  | _ => none

/-- The part of the file name after its last `.`; empty if there is none, or if that `.` begins
the name. -/
def extension (p : Path) : Text :=
  match p.fileName? with
  | none => []
  | some name =>
    match name.reverse.dropWhile (· ≠ '.') with
    | [] | [_] => []
    | _ :: _ :: _ => (name.reverse.takeWhile (· ≠ '.')).reverse

end Path

end LaunchOptions

import LaunchOptions.FileView

/-!
# Discovery of options files

A configuration root is a directory that holds `jvm.options`, or an options file itself. Drop-in
files lie in `jvm.options.d` beside the primary file and come after it, by the bytes of their
names. The primary file of a directory is listed whether it exists or not.

Specification: `SPEC_FULL.md`, section 4.2 (discovery).
-/

namespace LaunchOptions.Discovery

/-- The name of the primary file in a directory. -/
def primaryName : Text := "jvm.options".toList

/-- The name of the directory of drop-in files. -/
def dropInDirectoryName : Text := "jvm.options.d".toList

/-- The ending of the names of drop-in files. -/
def dropInEnding : Text := ".options".toList

/-- The primary file of a root, and the directory its drop-in files would lie in.
`SPEC_FULL.md`, section 4.2: a directory, a regular file, or neither. -/
def primary? (view : FileView) (root : Path) : Option (Path × Path) :=
  if view.isDirectory root then some (root.join primaryName, root.join dropInDirectoryName)
  else if view.isRegular root then some (root, root.parent.join dropInDirectoryName)
  else none

/-- Whether a name is that of a drop-in file; the ending alone is such a name. -/
def isDropIn (name : Text) : Bool := dropInEnding.isSuffixOf name

/-- Names in the order of their bytes, which is that of their code points. -/
def sortNames (names : List Text) : List Text :=
  names.mergeSort (fun a b ↦ (compare a b).isLE)

/-- The drop-in files of a directory, whatever kind of entry they are.
`SPEC_FULL.md`, section 4.2: entries that end in `.options`, in the order of their paths. -/
def dropIns (view : FileView) (directory : Path) : List Path :=
  if view.isDirectory directory then
    (sortNames ((view.names directory).filter isDropIn)).map directory.join
  else []

/-- The options files of a root, in the order in which they apply. -/
def optionsFiles (view : FileView) (root : Path) : List Path :=
  match primary? view root with
  | some (file, directory) => file :: dropIns view directory
  | none => []

end LaunchOptions.Discovery

import LaunchOptions.Path
import LaunchOptions.Text.Utf8

/-!
# File trees

A file system as a value: a tree of directories, files and symbolic links, with a working
directory. A location names a node by the way to it from the root, through no link.
-/

namespace LaunchOptions

/-- A node of a file tree. -/
inductive FileNode where
  | file (content : Bytes)
  | directory (entries : List (Text × FileNode))
  | link (target : Path)

/-- The names from the root to a node. -/
abbrev Location := List Text

/-- A file tree and the location where relative paths start. -/
structure FileTree where
  root : FileNode
  workingDirectory : Location

namespace FileNode

/-- The entry of a name. -/
def entry? (name : Text) (entries : List (Text × FileNode)) : Option FileNode :=
  entries.lookup name

/-- The entries with the one of a name changed, added or taken out; others stay in order. -/
def alterEntry (name : Text) (change : Option FileNode → Option FileNode) :
    List (Text × FileNode) → List (Text × FileNode)
  | [] =>
    match change none with
    | some node => [(name, node)]
    | none => []
  | (n, node) :: rest =>
    if n = name then
      match change (some node) with
      | some node => (n, node) :: rest
      | none => rest
    else (n, node) :: alterEntry name change rest

/-- The node at a location below a node. -/
def find? : FileNode → Location → Option FileNode
  | node, [] => some node
  | .directory entries, name :: rest =>
    match entry? name entries with
    | some node => find? node rest
    | none => none
  | _, _ :: _ => none

/-- The node with a change at a location below it; directories on the way are made. -/
def alter (change : Option FileNode → Option FileNode) :
    Location → Option FileNode → Option FileNode
  | [], node => change node
  | name :: rest, some (.directory entries) =>
    some (.directory (alterEntry name (alter change rest) entries))
  | name :: rest, _ => some (.directory (alterEntry name (alter change rest) []))

end FileNode

namespace FileTree

/-- The tree that holds an empty working directory and nothing else. -/
def empty : FileTree :=
  ⟨.directory [("work".toList, .directory [])], ["work".toList]⟩

/-- The node at a location. -/
def node? (tree : FileTree) (location : Location) : Option FileNode :=
  tree.root.find? location

/-- Put a node at a location. -/
def put (tree : FileTree) (location : Location) (node : FileNode) : FileTree :=
  { tree with
    root := (FileNode.alter (fun _ ↦ some node) location (some tree.root)).getD tree.root }

/-- Take out the node at a location. -/
def takeOut (tree : FileTree) (location : Location) : FileTree :=
  { tree with root := (FileNode.alter (fun _ ↦ none) location (some tree.root)).getD tree.root }

end FileTree

end LaunchOptions

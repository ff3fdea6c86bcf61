import LaunchOptions.FileTree.Walk

/-!
# Changing a file tree

Creating, removing and renaming nodes by path. A change that makes no sense, such as a file below
a file, leaves the tree as it is.
-/

namespace LaunchOptions.FileTree

/-- The steps to the directory of a path, and the name in it. -/
def splitLast? (p : Path) : Option (List WalkStep × Text) :=
  match (steps p).reverse.dropWhile (· = .stay) with
  | .enter name :: before => some (before.reverse, name)
  | _ => none

/-- The location that some steps lead to, and the tree with the missing directories made. -/
def ensure (tree : FileTree) (from_ : Location) : List WalkStep → Option (FileTree × Location)
  | [] => some (tree, from_)
  | step :: rest =>
    match tree.walk maxLinks from_ [step], step with
    | .ok location, _ => ensure tree location rest
    | .error .notFound, .enter name =>
      match tree.node? (from_ ++ [name]) with
      | none => ensure (tree.put (from_ ++ [name]) (.directory [])) (from_ ++ [name]) rest
      | some _ => none
    | .error _, _ => none

/-- Put a node at a path that starts at a location. Content goes through a symbolic link. A
directory that exists already keeps its entries, and none is made in place of a link. -/
def createAt (tree : FileTree) (links : Nat) (from_ : Location) (p : Path) (node : FileNode) :
    Option FileTree :=
  match splitLast? p with
  | none => some tree
  | some (before, name) =>
    match ensure tree (startOf p from_) before with
    | none => none
    | some (tree, directory) =>
      match tree.node? (directory ++ [name]), node, links with
      | some (.link target), .file _, links + 1 => createAt tree links directory target node
      | some (.link _), .file _, 0 => none
      | some (.directory _), .directory _, _ | some (.link _), .directory _, _ => some tree
      | _, _, _ => some (tree.put (directory ++ [name]) node)

/-- The tree with a node at a path; missing directories are made. -/
def create (tree : FileTree) (p : Path) (node : FileNode) : FileTree :=
  (createAt tree maxLinks tree.workingDirectory p node).getD tree

/-- The location of the entry that a path names; a link is not followed. -/
def entryLocation? (tree : FileTree) (p : Path) : Option Location := do
  let (before, name) ← splitLast? p
  match tree.walk maxLinks (startOf p tree.workingDirectory) before with
  | .ok directory => return directory ++ [name]
  | .error _ => none

/-- The tree without the entry at a path and all below it. -/
def remove (tree : FileTree) (p : Path) : FileTree :=
  match tree.entryLocation? p with
  | some location => tree.takeOut location
  | none => tree

/-- The tree with the entry at a path moved to another path, over what is there. -/
def rename (tree : FileTree) (source target : Path) : FileTree :=
  match tree.entryLocation? source, tree.entryLocation? target with
  | some here, some there =>
    match tree.node? here with
    | some node => (tree.takeOut here).put there node
    | none => tree
  | _, _ => tree

end LaunchOptions.FileTree

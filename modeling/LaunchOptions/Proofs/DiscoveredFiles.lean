import LaunchOptions.Proofs.Discovery
import LaunchOptions.Proofs.LawfulView

/-!
# The files that are discovered

The files of a root are its primary file and the entries of the directory of drop-in files that have
the ending, in the order of the bytes of their names. In which order that directory is listed, what
else is in it and what its entries are makes no difference. No file is listed twice, under any
spelling of its path.
-/

namespace LaunchOptions.Discovery

open FileTree

variable {view other : FileView} {root first directory : Path}

/-- The files of a root are a first one and then the entries of a directory that have the ending,
each once, by the bytes of their names. Where that is no directory, there are none. -/
def ListsFiles (view : FileView) (root first directory : Path) : Prop :=
  ∃ names, optionsFiles view root = first :: names.map directory.join ∧ Ascending names ∧
    ∀ name, name ∈ names ↔
      view.isDirectory directory ∧ name ∈ view.names directory ∧ dropInEnding <:+ name

private theorem listsFiles_of_eq (h : view.Lawful)
    (hfiles : optionsFiles view root = first :: dropIns view directory) :
    ListsFiles view root first directory :=
  ⟨dropInNames view directory, hfiles.trans (by rw [dropIns_eq]),
    ascending_dropInNames (h.nodup_names directory), fun _ ↦ mem_dropInNames⟩

/-! ### Each file once -/

/-- Names in ascending order are distinct. -/
theorem Ascending.nodup {names : List Text} (h : Ascending names) : names.Nodup := by
  refine h.imp fun {a b} hlt hab ↦ ?_
  subst hab
  simp at hlt

private theorem isName_of_mem_dropInNames (h : view.Lawful) {name : Text}
    (hname : name ∈ dropInNames view directory) : Path.IsName name := by
  obtain ⟨-, hlisted, hending⟩ := mem_dropInNames.mp hname
  exact Path.isName_of_lt_length (Nat.lt_of_lt_of_le (by decide) hending.length_le)
    (h.not_mem_of_mem_names hlisted)

/-- What lies in a directory is a level below what lies beside it, so a file beside the directory is
none of its drop-in files. -/
theorem nodup_components (h : view.Lawful)
    (hfirst : first.components.length = directory.components.length) :
    ((first :: dropIns view directory).map Path.components).Nodup := by
  have hcomponents : (dropIns view directory).map Path.components =
      (dropInNames view directory).map fun name ↦ directory.components ++ [.name name] := by
    rw [dropIns_eq, List.map_map]
    exact List.map_congr_left fun name hname ↦
      Path.components_join_name (isName_of_mem_dropInNames h hname) directory
  rw [List.map_cons, hcomponents, List.nodup_cons]
  refine ⟨fun hmem ↦ ?_, (ascending_dropInNames (h.nodup_names directory)).nodup.map ?_⟩
  · obtain ⟨name, -, hname⟩ := List.mem_map.mp hmem
    have hlength := congrArg List.length hname
    rw [List.length_append, List.length_singleton, hfirst] at hlength
    omega
  · intro name name' heq
    simpa using heq

/-! ### What makes no difference -/

/-- In both views the root is of the same kind, and the directory of its drop-in files is listed
with the same names that have the ending. Nothing else that the views show needs to be the same. -/
structure SameDropIns (view other : FileView) (root : Path) : Prop where
  kind?_eq : other.kind? root = view.kind? root
  isDirectory_eq {file directory : Path} : primary? view root = some (file, directory) →
    other.isDirectory directory = view.isDirectory directory
  mem_names_iff {file directory : Path} : primary? view root = some (file, directory) →
    view.isDirectory directory → ∀ name, dropInEnding <:+ name →
      (name ∈ other.names directory ↔ name ∈ view.names directory)

private theorem dropInNames_eq_of_mem_iff (h : view.Lawful) (hother : other.Lawful)
    (hdirectory : other.isDirectory directory = view.isDirectory directory)
    (hnames : view.isDirectory directory → ∀ name, dropInEnding <:+ name →
      (name ∈ other.names directory ↔ name ∈ view.names directory)) :
    dropInNames other directory = dropInNames view directory := by
  refine (ascending_dropInNames (hother.nodup_names directory)).eq_of_mem_iff
    (ascending_dropInNames (h.nodup_names directory)) fun name ↦ ?_
  rw [mem_dropInNames, mem_dropInNames, hdirectory]
  refine and_congr_right fun hisDirectory ↦ and_congr_left fun hending ↦ ?_
  exact hnames hisDirectory name hending

/-- Views that agree on the drop-ins list the same files, in whichever order they name them. -/
theorem SameDropIns.optionsFiles_eq (hsame : SameDropIns view other root) (h : view.Lawful)
    (hother : other.Lawful) : optionsFiles other root = optionsFiles view root := by
  have hprimary : primary? other root = primary? view root := by
    unfold primary? FileView.isDirectory FileView.isRegular
    rw [hsame.kind?_eq]
  unfold optionsFiles
  rw [hprimary]
  cases hroot : primary? view root with
  | none => rfl
  | some primary =>
    obtain ⟨file, directory⟩ := primary
    simp only [dropIns_eq, dropInNames_eq_of_mem_iff h hother (hsame.isDirectory_eq hroot)
      (hsame.mem_names_iff hroot)]

/-! ### The files of a root -/

private theorem components_join_dropInDirectoryName (p : Path) :
    (p.join dropInDirectoryName).components = p.components ++ [.name dropInDirectoryName] :=
  Path.components_join_name (by decide) p

/-- No file of a root is listed twice, under any spelling. -/
theorem nodup_optionsFiles (h : view.Lawful) (root : Path) :
    ((optionsFiles view root).map Path.components).Nodup := by
  by_cases hdirectory : view.isDirectory root
  · rw [optionsFiles_of_isDirectory hdirectory]
    refine nodup_components h ?_
    rw [components_join_dropInDirectoryName, Path.components_join_name (by decide)]
    simp
  · by_cases hregular : view.isRegular root
    · obtain ⟨name, hname⟩ := (h.endsInName_of_isRegular hregular).exists_components
      rw [optionsFiles_of_isRegular hregular]
      refine nodup_components h ?_
      rw [components_join_dropInDirectoryName, hname]
      simp
    · rw [optionsFiles_eq_nil (by simpa [FileView.isDirectory] using hdirectory)
        (by simpa [FileView.isRegular] using hregular)]
      exact List.nodup_nil

/-- A directory has its primary file, whether that exists or not, and the drop-in files in the
directory below. A regular file is its own primary file, and the drop-in files are in the directory
beside it; without a separator in the path that is one in the working directory. Other roots have no
files. No file is listed twice. In a tree, a name in a directory is that of an entry of any kind,
and in every view the files depend on no more than `SameDropIns` says. -/
theorem optionsFiles_exact (h : view.Lawful) (root : Path) :
    (view.isDirectory root →
      ListsFiles view root (root.join primaryName) (root.join dropInDirectoryName)) ∧
    (view.isRegular root →
      ListsFiles view root root (root.parent.join dropInDirectoryName) ∧
      (∃ above name, root.components = above ++ [.name name] ∧
        (root.parent.join dropInDirectoryName).components =
          above ++ [.name dropInDirectoryName]) ∧
      ('/' ∉ root.spelling → root.parent.join dropInDirectoryName = ⟨dropInDirectoryName⟩)) ∧
    (view.kind? root ≠ some .directory → view.kind? root ≠ some .regular →
      optionsFiles view root = []) ∧
    ((optionsFiles view root).map Path.components).Nodup ∧
    (∀ tree : FileTree, view = tree.view → ∀ directory entries,
      tree.lookup directory = .ok (.directory entries) →
        ∀ name, name ∈ view.names directory ↔ ∃ node, (name, node) ∈ entries) ∧
    ∀ other : FileView, other.Lawful → SameDropIns view other root →
      optionsFiles other root = optionsFiles view root := by
  refine ⟨fun hdirectory ↦ listsFiles_of_eq h (optionsFiles_of_isDirectory hdirectory),
    fun hregular ↦ ⟨listsFiles_of_eq h (optionsFiles_of_isRegular hregular), ?_, fun hbare ↦ ?_⟩,
    optionsFiles_eq_nil, nodup_optionsFiles h root, ?_,
    fun other hother hsame ↦ hsame.optionsFiles_eq h hother⟩
  · obtain ⟨name, hname⟩ := (h.endsInName_of_isRegular hregular).exists_components
    exact ⟨_, name, hname, components_join_dropInDirectoryName _⟩
  · rw [Path.parent_of_not_mem hbare]
    rfl
  · rintro tree rfl directory entries hlookup
    exact mem_names_view_iff hlookup

/-! ### A directory listed in two orders -/

/-- The directory `r`. -/
def plainRoot : Path := ⟨['r']⟩

/-- A tree in which `r` holds a directory of drop-in files and nothing else. -/
def dropInTree (entries : List (Text × FileNode)) : FileTree where
  root := .directory [(['w'], .directory [(['r'], .directory [
    (dropInDirectoryName, .directory entries)])])]
  workingDirectory := [['w']]

/-- Drop-in files of each kind: a link to nothing, a directory and a file. -/
def someDropIns : List (Text × FileNode) := [
  ("a.options".toList, .link ⟨"missing".toList⟩),
  ("b.options".toList, .directory [("deep.options".toList, .file [])]),
  ("c.options".toList, .file [])]

/-- Entries of the same drop-in names in another order and of other kinds, and a note. -/
def otherDropIns : List (Text × FileNode) := [
  ("c.options".toList, .link ⟨"notes".toList⟩),
  ("notes".toList, .file []),
  ("a.options".toList, .directory []),
  ("b.options".toList, .file [])]

private theorem isWellNamed_dropInTree {entries : List (Text × FileNode)}
    (h : (FileNode.directory entries).IsWellNamed) : (dropInTree entries).root.IsWellNamed := by
  have hone {name : Text} {node : FileNode} (hname : '/' ∉ name) (hnode : node.IsWellNamed) :
      (FileNode.directory [(name, node)]).IsWellNamed :=
    .directory (List.nodup_singleton name) (by simpa using hname) (by simpa using hnode)
  exact hone (by decide) (hone (by decide) (hone (by decide) h))

private theorem lawful_someDropIns : (dropInTree someDropIns).view.Lawful := by
  have hdeep : (FileNode.directory [("deep.options".toList, .file [])]).IsWellNamed :=
    .directory (by decide) (by simp) (by simpa using .file [])
  refine lawful_view (isWellNamed_dropInTree (.directory (by decide) (by simp [someDropIns]) ?_))
  simp only [someDropIns, List.forall_mem_cons]
  exact ⟨.link _, hdeep, .file _, by simp⟩

private theorem lawful_otherDropIns : (dropInTree otherDropIns).view.Lawful := by
  have hempty : (FileNode.directory []).IsWellNamed :=
    .directory (by decide) (by simp) (by simp)
  refine lawful_view (isWellNamed_dropInTree (.directory (by decide) (by simp [otherDropIns]) ?_))
  simp only [otherDropIns, List.forall_mem_cons]
  exact ⟨.link _, .file _, hempty, .file _, by simp⟩

private theorem lookup_plainRoot (entries : List (Text × FileNode)) :
    (dropInTree entries).lookup plainRoot =
      .ok (.directory [(dropInDirectoryName, .directory entries)]) :=
  lookup_names ⟨⟨['r'], rfl⟩, by decide⟩ [['r']] rfl rfl (by simp) (by decide)

private theorem lookup_plainRoot_dropIns (entries : List (Text × FileNode)) :
    (dropInTree entries).lookup (plainRoot.join dropInDirectoryName) = .ok (.directory entries) :=
  lookup_names ⟨⟨dropInDirectoryName, rfl⟩, by decide⟩ [['r'], dropInDirectoryName] rfl rfl
    (by simp) (by decide)

private theorem sameDropIns_dropInTree {entries entries' : List (Text × FileNode)}
    (h : ∀ name, dropInEnding <:+ name →
      (name ∈ entries'.map Prod.fst ↔ name ∈ entries.map Prod.fst)) :
    SameDropIns (dropInTree entries).view (dropInTree entries').view plainRoot := by
  have hroot : primary? (dropInTree entries).view plainRoot =
      some (plainRoot.join primaryName, plainRoot.join dropInDirectoryName) := by
    rw [primary?, if_pos (isDirectory_of_lookup (lookup_plainRoot entries))]
  refine ⟨?_, fun hfiles ↦ ?_, fun hfiles _ ↦ ?_⟩
  · simp only [FileTree.view, kind?, lookup_plainRoot]
  · obtain ⟨rfl, rfl⟩ := Prod.mk.inj (Option.some.inj (hroot.symm.trans hfiles))
    rw [isDirectory_of_lookup (lookup_plainRoot_dropIns entries),
      isDirectory_of_lookup (lookup_plainRoot_dropIns entries')]
  · obtain ⟨rfl, rfl⟩ := Prod.mk.inj (Option.some.inj (hroot.symm.trans hfiles))
    rwa [names_view_of_lookup (lookup_plainRoot_dropIns entries),
      names_view_of_lookup (lookup_plainRoot_dropIns entries')]

/-- The drop-in files of `r` come by their names after a primary file that does not exist. -/
theorem optionsFiles_plainRoot :
    (dropInTree someDropIns).view.Lawful ∧
      optionsFiles (dropInTree someDropIns).view plainRoot =
        [⟨"r/jvm.options".toList⟩, ⟨"r/jvm.options.d/a.options".toList⟩,
          ⟨"r/jvm.options.d/b.options".toList⟩, ⟨"r/jvm.options.d/c.options".toList⟩] ∧
      optionsFiles (dropInTree otherDropIns).view plainRoot =
        optionsFiles (dropInTree someDropIns).view plainRoot := by
  have hlookup := lookup_plainRoot_dropIns someDropIns
  have hdirectory := isDirectory_of_lookup (lookup_plainRoot someDropIns)
  obtain ⟨hfiles, -, -, -, -, hsame⟩ := optionsFiles_exact lawful_someDropIns plainRoot
  obtain ⟨names, hfiles, hascending, hmem⟩ := hfiles hdirectory
  have hnames : names = ["a.options".toList, "b.options".toList, "c.options".toList] := by
    refine hascending.eq_of_mem_iff (by unfold Ascending; decide) fun name ↦ ?_
    rw [hmem, names_view_of_lookup hlookup, isDirectory_of_lookup hlookup]
    refine ⟨fun h ↦ h.2.1, fun h ↦ ⟨rfl, h, ?_⟩⟩
    revert name
    decide
  refine ⟨lawful_someDropIns, by rw [hfiles, hnames]; rfl, hsame _ lawful_otherDropIns ?_⟩
  refine sameDropIns_dropInTree fun name hending ↦ ?_
  have hnote : name ≠ "notes".toList := by
    rintro rfl
    revert hending
    decide
  have hperm : (otherDropIns.map Prod.fst).Perm ("notes".toList :: someDropIns.map Prod.fst) := by
    decide
  rw [hperm.mem_iff, List.mem_cons, or_iff_right hnote]

end LaunchOptions.Discovery

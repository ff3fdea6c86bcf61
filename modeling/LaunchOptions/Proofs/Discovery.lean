import LaunchOptions.Discovery
import LaunchOptions.Proofs.ByteOrder
import LaunchOptions.Proofs.OrderedMap
import LaunchOptions.Proofs.PathMeaning

/-!
# The drop-in files of a directory

The drop-in files of a directory are its entries with the ending of such files. Sorting brings their
names into the one order in which their bytes ascend, so the order in which the directory lists them
makes no difference.
-/

namespace LaunchOptions.Discovery

open FileTree

variable {view : FileView} {root directory : Path} {name : Text}

/-! ### Roots -/

/-- A directory gives its primary file and its drop-ins. -/
theorem optionsFiles_of_isDirectory (h : view.isDirectory root) :
    optionsFiles view root =
      root.join primaryName :: dropIns view (root.join dropInDirectoryName) := by
  simp only [optionsFiles, primary?, h, if_true]

private theorem not_isDirectory_of_isRegular (h : view.isRegular root) :
    view.isDirectory root = false := by
  have hkind : view.kind? root = some .regular := of_decide_eq_true h
  simp [FileView.isDirectory, hkind]

/-- A file gives itself and the drop-ins beside it. -/
theorem optionsFiles_of_isRegular (h : view.isRegular root) :
    optionsFiles view root = root :: dropIns view (root.parent.join dropInDirectoryName) := by
  simp only [optionsFiles, primary?, not_isDirectory_of_isRegular h, h, if_true,
    Bool.false_eq_true, if_false]

/-- A root that is neither a directory nor a regular file has no files. -/
theorem optionsFiles_eq_nil (hdirectory : view.kind? root ≠ some .directory)
    (hregular : view.kind? root ≠ some .regular) : optionsFiles view root = [] := by
  simp [optionsFiles, primary?, FileView.isDirectory, FileView.isRegular, hdirectory, hregular]

/-! ### Names in order -/

/-- Each name has lesser bytes than those after it. -/
def Ascending (names : List Text) : Prop :=
  names.Pairwise (fun a b ↦ compare (Utf8.encode a) (Utf8.encode b) = .lt)

/-- Names in order are known by which ones they are. -/
theorem Ascending.eq_of_mem_iff {names names' : List Text} (h : Ascending names)
    (h' : Ascending names') (hmem : ∀ name, name ∈ names ↔ name ∈ names') : names = names' := by
  simp only [Ascending, Utf8.compare_encode] at h h'
  exact OrderedMap.eq_of_mem_iff id h h' hmem

/-- Names that are listed once are sorted by their bytes. -/
theorem ascending_sortNames {names : List Text} (h : names.Nodup) :
    Ascending (sortNames names) := by
  have htotal (a b : Text) : (compare a b).isLE || (compare b a).isLE := by
    rw [show compare b a = (compare a b).swap from Std.OrientedCmp.eq_swap]
    cases compare a b <;> rfl
  have hsorted : (sortNames names).Pairwise (fun a b ↦ (compare a b).isLE) :=
    List.pairwise_mergeSort (fun _ _ _ ↦ Std.TransCmp.isLE_trans) htotal names
  have hdistinct : (sortNames names).Nodup := (List.mergeSort_perm _ _).nodup_iff.mpr h
  refine hsorted.imp₂ (fun a b hle hne ↦ ?_) hdistinct
  rw [Utf8.compare_encode]
  cases hab : compare a b with
  | lt => rfl
  | eq => exact absurd (Std.LawfulEqOrd.eq_of_compare hab) hne
  | gt =>
    rw [hab] at hle
    cases hle

/-- The names of the drop-in files of a directory, in order. -/
def dropInNames (view : FileView) (directory : Path) : List Text :=
  if view.isDirectory directory then sortNames ((view.names directory).filter isDropIn) else []

/-- Drop-ins are found by their names. -/
theorem dropIns_eq (view : FileView) (directory : Path) :
    dropIns view directory = (dropInNames view directory).map directory.join := by
  unfold dropIns dropInNames
  split <;> rfl

/-- The drop-in files are the entries of a directory that have the ending. -/
theorem mem_dropInNames :
    name ∈ dropInNames view directory ↔
      view.isDirectory directory ∧ name ∈ view.names directory ∧ dropInEnding <:+ name := by
  unfold dropInNames
  split
  · next h =>
    rw [sortNames, List.mem_mergeSort, List.mem_filter, isDropIn, List.isSuffixOf_iff_suffix]
    simp only [h, true_and]
  · next h => simp [h]

/-- The names of drop-ins ascend, if a directory has each name once. -/
theorem ascending_dropInNames (h : (view.names directory).Nodup) :
    Ascending (dropInNames view directory) := by
  unfold dropInNames
  split
  · exact ascending_sortNames (h.filter _)
  · exact List.Pairwise.nil

/-! ### Names in a tree -/

/-- Proper paths with the same components are directories of the same drop-in files. -/
theorem dropInNames_congr (tree : FileTree) {p q : Path} (h : p.components = q.components)
    (hp : IsProper p) (hq : IsProper q) :
    dropInNames tree.view p = dropInNames tree.view q := by
  obtain ⟨hkind, -, hnames⟩ := tree.view_congr h hp hq
  unfold dropInNames FileView.isDirectory
  rw [hkind, hnames]

/-- A directory cannot be listed by a path that is too long. -/
theorem dropInNames_of_not_isWithinLimit {tree : FileTree} {p : Path} (h : ¬ IsWithinLimit p) :
    dropInNames tree.view p = [] := by
  have hnot : tree.view.isDirectory p = false := by
    simp [FileView.isDirectory, view, kind?, lookup_of_not_isWithinLimit h]
  simp only [dropInNames, hnot, Bool.false_eq_true, if_false]

end LaunchOptions.Discovery

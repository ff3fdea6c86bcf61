import LaunchOptions.Proofs.PathMeaning

/-!
# Laws of file systems

A file system lists each name in a directory once, and the name has no separator. A path to a
regular file ends in a name, since a separator at the end, a `.` and a `..` ask for a directory. A
view of a tree obeys these laws if the names in its directories do.
-/

namespace LaunchOptions

/-- The laws of a file system. -/
structure FileView.Lawful (view : FileView) : Prop where
  nodup_names (p : Path) : (view.names p).Nodup
  not_mem_of_mem_names {p : Path} {name : Text} : name ∈ view.names p → '/' ∉ name
  endsInName_of_isRegular {p : Path} : view.isRegular p → FileTree.EndsInName p

namespace FileNode

/-- In each directory the names are distinct and have no separator. -/
inductive IsWellNamed : FileNode → Prop where
  | file (content : Bytes) : IsWellNamed (.file content)
  | link (target : Path) : IsWellNamed (.link target)
  | directory {entries : List (Text × FileNode)}
      (nodup : (entries.map Prod.fst).Nodup)
      (noSeparator : ∀ entry ∈ entries, '/' ∉ entry.1)
      (below : ∀ entry ∈ entries, IsWellNamed entry.2) : IsWellNamed (.directory entries)

private theorem mem_of_entry_eq_some {name : Text} {entries : List (Text × FileNode)}
    {node : FileNode}
    (h : entry? name entries = some node) : (name, node) ∈ entries := by
  obtain ⟨before, after, rfl, -⟩ := List.lookup_eq_some_iff.mp h
  simp

/-- What is below a well-named node is well-named. -/
theorem IsWellNamed.find? {node below : FileNode} {location : Location} (h : node.IsWellNamed)
    (hfind : node.find? location = some below) : below.IsWellNamed := by
  induction location generalizing node with
  | nil =>
    rw [FileNode.find?] at hfind
    exact Option.some.inj hfind ▸ h
  | cons name rest ih =>
    cases h with
    | file content => cases hfind
    | link target => cases hfind
    | directory nodup noSeparator hbelow =>
      rw [FileNode.find?] at hfind
      split at hfind
      · next entry hentry => exact ih (hbelow _ (mem_of_entry_eq_some hentry)) hfind
      · cases hfind

end FileNode

namespace FileTree

/-! ### Paths to files -/

section

variable {tree : FileTree} {location : Location}

/-- Above a directory there is a directory; the root is above itself. -/
theorem exists_directory_dropLast {entries : List (Text × FileNode)}
    (h : tree.node? location = some (.directory entries)) :
    ∃ above, tree.node? location.dropLast = some (.directory above) := by
  obtain rfl | ⟨before, name, rfl⟩ := List.eq_nil_or_concat location
  · exact ⟨entries, h⟩
  · rw [List.concat_eq_append, node?_append] at h
    obtain ⟨node, hnode, hbelow⟩ := Option.bind_eq_some_iff.mp h
    rw [List.concat_eq_append, List.dropLast_concat]
    cases node with
    | directory above => exact ⟨above, hnode⟩
    | file content => cases hbelow
    | link target => cases hbelow

/-- A last step that is to no entry leads to a directory. -/
theorem exists_directory_of_walk {links : Nat} {at_ : Location} {step : WalkStep}
    (hstep : ∀ name, step ≠ .enter name) (h : tree.walk links at_ [step] = .ok location) :
    ∃ entries, tree.node? location = some (.directory entries) := by
  simp only [walk] at h
  split at h
  · next entries hnode =>
    cases step with
    | stay =>
      cases h
      exact ⟨entries, hnode⟩
    | up =>
      cases h
      exact exists_directory_dropLast hnode
    | enter name => exact absurd rfl (hstep name)
  · cases h
  · cases h

private theorem lookup_eq_ok_iff {p : Path} {node : FileNode} :
    tree.lookup p = .ok node ↔
      ∃ location, tree.resolve p = .ok location ∧ tree.node? location = some node := by
  unfold lookup
  cases tree.resolve p with
  | error cause => simp
  | ok location =>
    cases h : tree.node? location with
    | none => simp [h]
    | some node' => simp [h]

private theorem exists_lookup_of_isRegular {p : Path} (h : tree.view.isRegular p) :
    ∃ content, tree.lookup p = .ok (.file content) := by
  have hkind : tree.kind? p = some .regular := of_decide_eq_true h
  unfold kind? at hkind
  split at hkind
  · next content hlookup => exact ⟨content, hlookup⟩
  · cases hkind
  · cases hkind
  · cases hkind

/-- A path that leads somewhere has a last step, which is walked from somewhere. -/
theorem exists_last_step {p : Path} (h : tree.resolve p = .ok location) :
    ∃ step links at_, (steps p).getLast? = some step ∧
      tree.walk links at_ [step] = .ok location := by
  unfold resolve at h
  split at h
  · cases h
  · next hempty =>
    have hne : p.spelling ≠ [] := by simpa using hempty
    split at h
    · cases h
    · obtain ⟨before, step, hsteps⟩ : ∃ before step, steps p = before ++ [step] := by
        by_cases hlast : p.spelling.getLast? = some '/'
        · exact ⟨_, _, (steps_eq p).trans (by rw [if_pos hlast])⟩
        · obtain ⟨front, piece, -, -, hsteps⟩ := exists_last_piece hne hlast
          exact ⟨_, _, hsteps⟩
      rw [hsteps] at h ⊢
      rw [List.getLast?_concat]
      rcases tree.walk_append maxLinks (startOf p tree.workingDirectory) before with
        ⟨cause, hfails⟩ | ⟨links, at_, hleads⟩
      · rw [hfails] at h
        cases h
      · rw [hleads] at h
        exact ⟨step, links, at_, rfl, h⟩

/-- A path to a regular file ends in a name. -/
theorem endsInName_of_isRegular {p : Path} (h : tree.view.isRegular p) : EndsInName p := by
  obtain ⟨content, hlookup⟩ := exists_lookup_of_isRegular h
  obtain ⟨location, hresolve, hnode⟩ := lookup_eq_ok_iff.mp hlookup
  obtain ⟨step, links, at_, hlast, hwalk⟩ := exists_last_step hresolve
  by_contra hends
  have hstep (name : Text) : step ≠ .enter name := by
    rintro rfl
    exact hends ⟨name, hlast⟩
  obtain ⟨entries, hdirectory⟩ := exists_directory_of_walk hstep hwalk
  rw [hnode] at hdirectory
  cases hdirectory

end

/-! ### Views of trees -/

/-- Names are seen in directories only. -/
theorem names_view_cases (tree : FileTree) (p : Path) :
    tree.view.names p = [] ∨ ∃ entries, tree.lookup p = .ok (.directory entries) := by
  simp only [view, names]
  split
  · next entries h => exact .inr ⟨entries, h⟩
  · exact .inl rfl

/-- A tree with proper names is a file system. -/
theorem lawful_view {tree : FileTree} (h : tree.root.IsWellNamed) : tree.view.Lawful := by
  have hentries {p : Path} {entries : List (Text × FileNode)}
      (hlookup : tree.lookup p = .ok (.directory entries)) :
      (FileNode.directory entries).IsWellNamed := by
    obtain ⟨location, -, hnode⟩ := lookup_eq_ok_iff.mp hlookup
    exact h.find? hnode
  refine ⟨fun p ↦ ?_, fun {p name} hname ↦ ?_, endsInName_of_isRegular⟩
  · rcases tree.names_view_cases p with hnil | ⟨entries, hlookup⟩
    · exact hnil ▸ List.nodup_nil
    · rw [names_view_of_lookup hlookup]
      cases hentries hlookup with
      | directory nodup noSeparator below => exact nodup
  · rcases tree.names_view_cases p with hnil | ⟨entries, hlookup⟩
    · rw [hnil] at hname
      cases hname
    · rw [names_view_of_lookup hlookup] at hname
      obtain ⟨entry, hentry, rfl⟩ := List.mem_map.mp hname
      cases hentries hlookup with
      | directory nodup noSeparator below => exact noSeparator entry hentry

end FileTree

end LaunchOptions

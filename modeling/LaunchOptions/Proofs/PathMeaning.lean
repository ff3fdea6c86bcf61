import LaunchOptions.FileTree.Walk
import LaunchOptions.Proofs.PathComponents

/-!
# What a path leads to

A walk takes the steps that the components of a path stand for. To stay in a directory makes no
difference to a walk that goes on. So paths with the same components lead to the same node, if they
end in a name and neither of them is too long.
-/

namespace LaunchOptions.FileTree

open LaunchOptions.Path (Component isIdle isSeparator ofPiece)

/-! ### Walks -/

section

variable (tree : FileTree)

/-- To stay in a directory makes no difference before another step: both need a directory. -/
theorem walk_stay (links : Nat) (at_ : Location) (step : WalkStep) (rest : List WalkStep) :
    tree.walk links at_ (.stay :: step :: rest) = tree.walk links at_ (step :: rest) := by
  rw [walk]
  cases h : tree.node? at_ with
  | none => rw [walk, h]
  | some node =>
    cases node with
    | directory entries => rfl
    | file content => rw [walk, h]
    | link target => rw [walk, h]

/-- To stay in a directory is to go on from it. -/
theorem walk_stay_of_directory {at_ : Location} {entries : List (Text × FileNode)}
    (h : tree.node? at_ = some (.directory entries)) (links : Nat) (rest : List WalkStep) :
    tree.walk links at_ (.stay :: rest) = tree.walk links at_ rest := by
  rw [walk, h]

/-- Some steps fail, whatever comes after them, or what comes after them is walked from where they
lead to, with the links that are left. -/
theorem walk_append (links : Nat) (at_ : Location) (before : List WalkStep) :
    (∃ cause, ∀ after, tree.walk links at_ (before ++ after) = .error cause) ∨
      ∃ links' at', ∀ after,
        tree.walk links at_ (before ++ after) = tree.walk links' at' after := by
  -- A link puts its own steps in front, so it counts before the number of steps.
  induction links using Nat.strongRecOn generalizing at_ before with
  | ind links ihLinks =>
    induction before generalizing at_ with
    | nil => exact .inr ⟨links, at_, fun _ ↦ rfl⟩
    | cons step rest ih =>
      simp only [List.cons_append, walk]
      cases tree.node? at_ with
      | none => exact .inl ⟨_, fun _ ↦ rfl⟩
      | some node =>
        cases node with
        | file content => exact .inl ⟨_, fun _ ↦ rfl⟩
        | link target => exact .inl ⟨_, fun _ ↦ rfl⟩
        | directory entries =>
          cases step with
          | stay => exact ih at_
          | up => exact ih at_.dropLast
          | enter name =>
            dsimp only
            split
            · exact .inl ⟨_, fun _ ↦ rfl⟩
            · cases FileNode.entry? name entries with
              | none => exact .inl ⟨_, fun _ ↦ rfl⟩
              | some entry =>
                cases entry with
                | file content => exact ih (at_ ++ [name])
                | directory entries => exact ih (at_ ++ [name])
                | link target =>
                  cases links with
                  | zero => exact .inl ⟨_, fun _ ↦ rfl⟩
                  | succ links =>
                    dsimp only
                    split
                    · exact .inl ⟨_, fun _ ↦ rfl⟩
                    · simp only [← List.append_assoc]
                      exact ihLinks links (Nat.lt_succ_self links) _ _

/-- Walks that go on the same way from everywhere go the same way after any steps. -/
theorem walk_append_congr {after after' : List WalkStep}
    (h : ∀ links at_, tree.walk links at_ after = tree.walk links at_ after') (links : Nat)
    (at_ : Location) (before : List WalkStep) :
    tree.walk links at_ (before ++ after) = tree.walk links at_ (before ++ after') := by
  rcases tree.walk_append links at_ before with ⟨cause, hfails⟩ | ⟨links', at', hleads⟩
  · rw [hfails, hfails]
  · rw [hleads, hleads, h]

/-- A walk that does not end by staying may leave out to stay. -/
theorem walk_filter_stay (links : Nat) (at_ : Location) {steps : List WalkStep}
    (h : steps.getLast? ≠ some .stay) :
    tree.walk links at_ steps = tree.walk links at_ (steps.filter (· ≠ .stay)) := by
  induction steps generalizing links at_ with
  | nil => rfl
  | cons step rest ih =>
    have hrest : rest.getLast? ≠ some .stay := by
      intro hlast
      rw [List.getLast?_cons, hlast] at h
      exact h rfl
    by_cases hstep : step = .stay
    · subst hstep
      cases rest with
      | nil => exact absurd rfl h
      | cons step rest =>
        rw [walk_stay, ih links at_ hrest]
        rfl
    · have hcongr := tree.walk_append_congr (fun links at_ ↦ ih links at_ hrest) links at_ [step]
      simpa [hstep] using hcongr

/-- The node at a location is found below that at the beginning of the location. -/
theorem node?_append (at_ names : Location) :
    tree.node? (at_ ++ names) = (tree.node? at_).bind (·.find? names) := by
  unfold node?
  generalize tree.root = node
  induction at_ generalizing node with
  | nil => rfl
  | cons name rest ih =>
    cases node with
    | file content => rfl
    | link target => rfl
    | directory entries =>
      simp only [List.cons_append, FileNode.find?]
      cases FileNode.entry? name entries with
      | none => rfl
      | some entry => exact ih entry

/-- The names to a node that is no link are walked through directories alone. -/
theorem walk_names {at_ names : Location} {node : FileNode}
    (h : tree.node? (at_ ++ names) = some node) (hlink : ∀ target, node ≠ .link target)
    (hshort : ∀ name ∈ names, (Utf8.encode name).length ≤ maxName) (links : Nat)
    (rest : List WalkStep) :
    tree.walk links at_ (names.map .enter ++ rest) = tree.walk links (at_ ++ names) rest := by
  induction names generalizing at_ with
  | nil => simp
  | cons name more ih =>
    have hfirst : at_ ++ name :: more = at_ ++ [name] ++ more := by simp
    have hname := Nat.not_lt.mpr (hshort name (by simp))
    rw [List.map_cons, List.cons_append, walk]
    have hbelow := h
    rw [node?_append] at hbelow
    obtain ⟨directory, hdirectory, hbelow⟩ := Option.bind_eq_some_iff.mp hbelow
    rw [hdirectory]
    cases directory with
    | file content => cases hbelow
    | link target => cases hbelow
    | directory entries =>
      rw [FileNode.find?] at hbelow
      dsimp only
      rw [if_neg hname]
      cases hentry : FileNode.entry? name entries with
      | none => simp [hentry] at hbelow
      | some entry =>
        have hmore := ih (hfirst ▸ h) fun name hmem ↦ hshort name (by simp [hmem])
        rw [← hfirst] at hmore
        cases entry with
        | file content => exact hmore
        | directory entries => exact hmore
        | link target =>
          simp only [hentry] at hbelow
          cases more with
          | nil => exact absurd (Option.some.inj hbelow).symm (hlink target)
          | cons => cases hbelow

end

/-! ### Steps and components -/

/-- The step that a component stands for; what begins a path is no step. -/
def stepOf? : Component → Option WalkStep
  | .root | .here => none
  | .up => some .up
  | .name n => some (.enter n)

/-- The step that a piece stands for. -/
def stepOfPiece (piece : Text) : WalkStep :=
  if piece = ['.'] then .stay else if piece = ['.', '.'] then .up else .enter piece

/-- The steps of a path are those of its pieces that are not empty, and a slash at the end is one
that stays. -/
theorem steps_eq (p : Path) :
    steps p = (p.pieces.filter (fun s ↦ !s.isEmpty)).map stepOfPiece ++
      if p.spelling.getLast? = some '/' then [.stay] else [] := by
  unfold steps
  split
  · rfl
  · rw [List.append_nil]
    rfl

/-- The pieces that are not idle are the steps that do not stay. -/
theorem filter_map_stepOfPiece (pieces : List Text) :
    ((pieces.filter (fun s ↦ !s.isEmpty)).map stepOfPiece).filter (· ≠ .stay) =
      ((pieces.filter (fun s ↦ !isIdle s)).map ofPiece).filterMap stepOf? := by
  induction pieces with
  | nil => rfl
  | cons piece more ih =>
    by_cases hnil : piece = []
    · simpa [hnil, isIdle] using ih
    · by_cases hdot : piece = ['.']
      · simpa [hdot, isIdle, stepOfPiece] using ih
      · by_cases hdots : piece = ['.', '.']
        · simpa [hdots, isIdle, stepOfPiece, ofPiece, stepOf?] using ih
        · simpa [hnil, hdot, hdots, isIdle, stepOfPiece, ofPiece, stepOf?] using ih

/-- The steps of a path that do not stay are those that its components stand for. -/
theorem filter_steps (p : Path) :
    (steps p).filter (· ≠ .stay) = p.components.filterMap stepOf? := by
  have hlast : (if p.spelling.getLast? = some '/' then [WalkStep.stay] else []).filter
      (· ≠ .stay) = [] := by
    split <;> rfl
  have hfirst : (if p.isAbsolute then [Component.root]
      else if p.pieces.head? = some ['.'] then [.here] else []).filterMap stepOf? = [] := by
    split
    · rfl
    · split <;> rfl
  rw [steps_eq, List.filter_append, hlast, filter_map_stepOfPiece, Path.components,
    List.filterMap_append, hfirst, List.append_nil, List.nil_append]

/-- A path is absolute if that is its first component. -/
theorem isAbsolute_iff_components (p : Path) :
    p.isAbsolute ↔ p.components.head? = some .root := by
  unfold Path.components
  split
  · next h => simp [h]
  · next h =>
    refine ⟨fun h' ↦ absurd h' h, fun hroot ↦ ?_⟩
    split at hroot
    · cases hroot
    · rw [List.nil_append, List.head?_map] at hroot
      obtain ⟨piece, -, hpiece⟩ := Option.map_eq_some_iff.mp hroot
      unfold ofPiece at hpiece
      split at hpiece <;> cases hpiece

/-! ### Paths that end in a name -/

/-- The last step of the path is to an entry of a directory. -/
def EndsInName (p : Path) : Prop := ∃ name, (steps p).getLast? = some (.enter name)

/-- The path is not too long to be walked. -/
def IsWithinLimit (p : Path) : Prop := (Utf8.encode p.spelling).length ≤ maxPath

instance : DecidablePred IsWithinLimit := fun _ ↦ Nat.decLe _ _

/-- A path that ends in a name is not empty. -/
theorem EndsInName.spelling_ne_nil {p : Path} (h : EndsInName p) : p.spelling ≠ [] := by
  obtain ⟨spelling⟩ := p
  rintro rfl
  obtain ⟨name, h⟩ := h
  cases h

/-- A path that does not end in a separator has a last piece, and that is its last step. -/
theorem exists_last_piece {p : Path} (hne : p.spelling ≠ [])
    (hlast : p.spelling.getLast? ≠ some '/') : ∃ front piece,
      p.pieces = front ++ [piece] ∧ piece ≠ [] ∧
        steps p = (front.filter (fun s ↦ !s.isEmpty)).map stepOfPiece ++ [stepOfPiece piece] := by
  obtain ⟨before, c, hspelling⟩ := (List.eq_nil_or_concat p.spelling).resolve_left hne
  rw [List.concat_eq_append] at hspelling
  have hc : ∀ d ∈ [c], isSeparator d = false := by
    intro d hd
    rw [List.mem_singleton.mp hd]
    exact decide_eq_false fun he ↦ hlast (by rw [hspelling, he, List.getLast?_concat])
  obtain ⟨piece, hpiece⟩ := Text.getLast?_pieces_append before hc
  rw [← hspelling] at hpiece
  obtain ⟨front, hfront⟩ := List.getLast?_eq_some_iff.mp hpiece
  refine ⟨front, piece ++ [c], hfront, by simp, ?_⟩
  rw [steps_eq, if_neg hlast, List.append_nil, Path.pieces, hfront, List.filter_append,
    List.map_append]
  simp

/-- The last piece of a path that ends in a name is that name. -/
theorem EndsInName.exists_pieces {p : Path} (h : EndsInName p) :
    ∃ front name, p.pieces = front ++ [name] ∧ Path.IsName name := by
  have hne := h.spelling_ne_nil
  obtain ⟨name, hname⟩ := h
  have hlast : p.spelling.getLast? ≠ some '/' := by
    intro hlast
    rw [steps_eq, if_pos hlast, List.getLast?_concat] at hname
    cases hname
  obtain ⟨front, piece, hpieces, hpiece, hsteps⟩ := exists_last_piece hne hlast
  refine ⟨front, piece, hpieces, ?_⟩
  rw [hsteps, List.getLast?_concat, stepOfPiece] at hname
  have hsep : '/' ∉ piece := by
    refine Path.not_mem_of_mem_pieces (t := p.spelling) ?_
    rw [← Path.pieces, hpieces]
    exact List.mem_append_right _ (List.mem_singleton_self piece)
  split at hname
  · cases hname
  · next hdot =>
    split at hname
    · cases hname
    · next hdots => exact ⟨by simp [isIdle, hpiece, hdot], hdots, hsep⟩

/-- A path that ends in a name has that name below the components of its parent. -/
theorem EndsInName.exists_components {p : Path} (h : EndsInName p) :
    ∃ name, p.components = p.parent.components ++ [.name name] := by
  obtain ⟨front, name, hpieces, hname⟩ := h.exists_pieces
  refine ⟨name, ?_⟩
  rw [Path.components_eq h.spelling_ne_nil, Path.components_parent_of_pieces hpieces, hpieces,
    Path.componentsOf_append_name hname]

/-- A path ends in a name if it ends in three characters or more that are no separators. -/
theorem endsInName_of_append {p : Path} {before ending : Text} (h : p.spelling = before ++ ending)
    (hsep : '/' ∉ ending) (hlen : 2 < ending.length) : EndsInName p := by
  have hne : ending ≠ [] := List.ne_nil_of_length_pos (by omega)
  have hlast : p.spelling.getLast? ≠ some '/' := by
    rw [h, List.getLast?_append_of_ne_nil _ hne]
    exact fun hmem ↦ hsep (List.mem_of_getLast? hmem)
  obtain ⟨piece, hpiece⟩ := Text.getLast?_pieces_append (p := isSeparator) before
    fun c hc ↦ decide_eq_false fun he ↦ hsep (he ▸ hc)
  obtain ⟨others, hothers⟩ := List.getLast?_eq_some_iff.mp hpiece
  have hlong : 2 < (piece ++ ending).length := by
    rw [List.length_append]
    omega
  have hdot : piece ++ ending ≠ ['.'] := fun he ↦ by simp [he] at hlong
  have hdots : piece ++ ending ≠ ['.', '.'] := fun he ↦ by simp [he] at hlong
  refine ⟨piece ++ ending, ?_⟩
  rw [steps_eq, if_neg hlast, Path.pieces, h, hothers]
  simp [hne, stepOfPiece, hdot, hdots]

/-- A joined path ends in a name as the name does. -/
theorem endsInName_join {p : Path} {name ending : Text} (h : p.spelling ≠ [])
    (hending : ending <:+ name) (hsep : '/' ∉ ending) (hlen : 2 < ending.length) :
    EndsInName (p.join name) := by
  obtain ⟨before, rfl⟩ := hending
  have happend : (p.join (before ++ ending)).spelling = (p.stem ++ '/' :: before) ++ ending := by
    rw [Path.spelling_join h, List.append_assoc, List.cons_append]
  exact endsInName_of_append happend hsep hlen

/-- Where a path leads to is read off its components. -/
theorem resolve_eq {tree : FileTree} {p : Path} (h : EndsInName p) (hlimit : IsWithinLimit p) :
    tree.resolve p = tree.walk maxLinks
      (if p.components.head? = some .root then [] else tree.workingDirectory)
      (p.components.filterMap stepOf?) := by
  have hne := h.spelling_ne_nil
  obtain ⟨name, hname⟩ := h
  have hstay : (steps p).getLast? ≠ some .stay := by
    rw [hname]
    exact fun he ↦ by cases he
  rw [resolve, if_neg (by simpa using hne), if_neg (Nat.not_lt.mpr hlimit),
    tree.walk_filter_stay _ _ hstay, filter_steps, startOf]
  simp only [isAbsolute_iff_components]

/-- The path ends in a name, and it is not too long. -/
structure IsProper (p : Path) : Prop where
  endsInName : EndsInName p
  isWithinLimit : IsWithinLimit p

/-- A joined path is not too long in the shorter spelling, if it is not in the longer one. -/
theorem IsWithinLimit.respell {p q : Path} {name : Text} (h : q.Respells p)
    (hlimit : IsWithinLimit (p.join name)) : IsWithinLimit (q.join name) :=
  (h.length_encode_join_le name).trans hlimit

/-- Proper paths with the same components lead to the same node, or fail with the same cause. -/
theorem lookup_congr {tree : FileTree} {p q : Path} (h : p.components = q.components)
    (hp : IsProper p) (hq : IsProper q) : tree.lookup p = tree.lookup q := by
  simp only [lookup, resolve_eq hp.endsInName hp.isWithinLimit,
    resolve_eq hq.endsInName hq.isWithinLimit, h]

/-- What is seen at proper paths with the same components is the same. -/
theorem view_congr {tree : FileTree} {p q : Path} (h : p.components = q.components)
    (hp : IsProper p) (hq : IsProper q) :
    tree.view.kind? p = tree.view.kind? q ∧ tree.view.read p = tree.view.read q ∧
      tree.view.names p = tree.view.names q := by
  simp only [view, kind?, read, names, lookup_congr h hp hq, and_self]

/-- The names in a directory are those of its entries, whatever they are. -/
theorem names_view_of_lookup {tree : FileTree} {p : Path} {entries : List (Text × FileNode)}
    (h : tree.lookup p = .ok (.directory entries)) :
    tree.view.names p = entries.map Prod.fst := by
  simp only [view, names, h]

/-- What a lookup says is a directory is seen as one. -/
theorem isDirectory_of_lookup {tree : FileTree} {p : Path} {entries : List (Text × FileNode)}
    (h : tree.lookup p = .ok (.directory entries)) : tree.view.isDirectory p := by
  simp [FileView.isDirectory, view, kind?, h]

/-- The names that are seen in a directory are those of its entries. -/
theorem mem_names_view_iff {tree : FileTree} {p : Path} {entries : List (Text × FileNode)}
    (h : tree.lookup p = .ok (.directory entries)) (name : Text) :
    name ∈ tree.view.names p ↔ ∃ node, (name, node) ∈ entries := by
  simp [names_view_of_lookup h]

/-- A relative path of names alone leads to the node at these names, unless that is a link. -/
theorem lookup_names {tree : FileTree} {p : Path} {node : FileNode} (hp : IsProper p)
    (names : Location) (hcomponents : p.components = names.map .name)
    (h : tree.node? (tree.workingDirectory ++ names) = some node)
    (hlink : ∀ target, node ≠ .link target)
    (hshort : ∀ name ∈ names, (Utf8.encode name).length ≤ maxName) :
    tree.lookup p = .ok node := by
  have hfirst : p.components.head? ≠ some .root := by
    rw [hcomponents]
    cases names <;> simp
  have hsteps : p.components.filterMap stepOf? = names.map .enter := by
    rw [hcomponents, List.filterMap_map]
    exact congrFun (List.filterMap_eq_map (f := WalkStep.enter)) names
  have hwalk := tree.walk_names h hlink hshort maxLinks []
  rw [List.append_nil, walk] at hwalk
  rw [lookup, resolve_eq hp.endsInName hp.isWithinLimit, hsteps, if_neg hfirst, hwalk]
  simp only [h]

/-- A path that is too long is not walked. -/
theorem lookup_of_not_isWithinLimit {tree : FileTree} {p : Path} (h : ¬ IsWithinLimit p) :
    tree.lookup p = .error .invalidFilename := by
  have hlong : maxPath < (Utf8.encode p.spelling).length := Nat.not_le.mp h
  have hne : p.spelling ≠ [] := by
    intro hnil
    rw [hnil] at hlong
    cases hlong
  rw [lookup, resolve, if_neg (by simpa using hne), if_pos hlong]

/-- A path that is too long cannot be read. -/
theorem read_of_not_isWithinLimit {tree : FileTree} {p : Path} (h : ¬ IsWithinLimit p) :
    tree.view.read p = .error .invalidFilename := by
  simp only [view, read, lookup_of_not_isWithinLimit h]

/-- Nothing is seen at a path without a spelling. -/
theorem spelling_ne_nil_of_kind? {tree : FileTree} {p : Path} {kind : FileKind}
    (h : tree.view.kind? p = some kind) : p.spelling ≠ [] := by
  intro hnil
  have hnone : tree.view.kind? p = none := by
    simp only [view, kind?, lookup, resolve, hnil, List.isEmpty_nil, if_true]
  rw [hnone] at h
  cases h

end LaunchOptions.FileTree

import LaunchOptions.Proofs.Discovery
import LaunchOptions.Proofs.FailFast
import Mathlib.Data.List.Forall2

/-!
# A directory and its primary file as roots

A directory that holds a primary file, and that file, are roots of the same options. The paths of
their files can be spelled in two ways, since the one goes through the directory as it is spelled
and the other through the parent of the file. The system refuses a path that is too long in one of
the spellings, so the roots agree only within that limit.
-/

namespace LaunchOptions

open Discovery FileTree

/-! ### What an assembly says -/

namespace Assembly

/-- Outcomes that are the same, but for the spelling of the file that is reported. -/
inductive SameUpToSpelling :
    Except OptionsError (List Text) → Except OptionsError (List Text) → Prop where
  | options (options : List Text) : SameUpToSpelling (.ok options) (.ok options)
  | invalidLines {file file' : Path} (lines : InvalidLines)
    (h : file.components = file'.components) :
    SameUpToSpelling (.error (.invalidLines file lines)) (.error (.invalidLines file' lines))
  | unreadable {file file' : Path} (cause : ReadFailure)
    (h : file.components = file'.components) :
    SameUpToSpelling (.error (.unreadable file cause)) (.error (.unreadable file' cause))

/-- Options that come before both outcomes leave them the same. -/
theorem SameUpToSpelling.map_append {outcome outcome' : Except OptionsError (List Text)}
    (h : SameUpToSpelling outcome outcome') (before : List Text) :
    SameUpToSpelling (outcome.map (before ++ ·)) (outcome'.map (before ++ ·)) := by
  cases h with
  | options options => exact .options (before ++ options)
  | invalidLines lines h => exact .invalidLines lines h
  | unreadable cause h => exact .unreadable cause h

variable {view : FileView}

/-- Two spellings of a file from which the same is read. -/
def ReadsAlike (view : FileView) (file file' : Path) : Prop :=
  file.components = file'.components ∧ view.read file = view.read file'

private theorem fileOptions_sameUpToSpelling {file file' : Path} (h : ReadsAlike view file file')
    (version : Nat) :
    SameUpToSpelling (fileOptions view version file) (fileOptions view version file') := by
  obtain ⟨hcomponents, hread⟩ := h
  cases hcontent : view.read file with
  | error cause =>
    rw [fileOptions_of_error hcontent, fileOptions_of_error (hread ▸ hcontent)]
    exact .unreadable cause hcomponents
  | ok content =>
    rw [fileOptions_of_ok hcontent, fileOptions_of_ok (hread ▸ hcontent)]
    split
    · exact .options _
    · exact .invalidLines _ hcomponents

/-- Files from which the same is read, one by one, give the same outcome, unless the first files
fail at one whose path is too long. -/
theorem filesOptions_sameUpToSpelling {tree : FileTree} {files files' : List Path}
    (h : List.Forall₂ (fun file file' ↦ ReadsAlike tree.view file file' ∨ ¬ IsWithinLimit file)
      files files') (version : Nat) :
    SameUpToSpelling (filesOptions tree.view version files)
        (filesOptions tree.view version files') ∨
      ∃ file ∈ files, ¬ IsWithinLimit file ∧
        filesOptions tree.view version files = .error (.unreadable file .invalidFilename) := by
  induction h with
  | nil => exact .inl (.options [])
  | @cons file file' rest rest' hfile _ ih =>
    rcases hfile with hfile | hlong
    · have hsame := fileOptions_sameUpToSpelling hfile version
      rw [filesOptions, filesOptions]
      generalize fileOptions tree.view version file = outcome at hsame
      generalize fileOptions tree.view version file' = outcome' at hsame
      cases hsame with
      | invalidLines lines h => exact .inl (.invalidLines lines h)
      | unreadable cause h => exact .inl (.unreadable cause h)
      | options options =>
        refine ih.imp (·.map_append options) ?_
        rintro ⟨late, hmem, hlong, herror⟩
        refine ⟨late, List.mem_cons_of_mem _ hmem, hlong, ?_⟩
        simp only [herror, Except.map]
    · refine .inr ⟨file, List.mem_cons_self, hlong, ?_⟩
      rw [filesOptions, fileOptions_of_error (read_of_not_isWithinLimit hlong)]

/-! ### The two roots -/

section

variable {tree : FileTree} {root : Path}

/-- Through its primary file, a root names its drop-in directory in a shorter spelling. -/
theorem respells_dropInDirectory (h : root.spelling ≠ []) :
    ((root.join primaryName).parent.join dropInDirectoryName).Respells
      (root.join dropInDirectoryName) :=
  (Path.respells_parent_join h (by decide)).join dropInDirectoryName

private theorem isProper_join_dropInDirectoryName (h : root.spelling ≠ [])
    (hlimit : IsWithinLimit (root.join dropInDirectoryName)) :
    IsProper (root.join dropInDirectoryName) :=
  ⟨endsInName_join h List.suffix_rfl (by decide) (by decide), hlimit⟩

/-- In both spellings the directory has the same drop-in files. -/
theorem dropInNames_parent_primaryName (tree : FileTree) (h : root.spelling ≠ [])
    (hlimit : IsWithinLimit (root.join dropInDirectoryName)) :
    dropInNames tree.view ((root.join primaryName).parent.join dropInDirectoryName) =
      dropInNames tree.view (root.join dropInDirectoryName) := by
  have hparent := Path.respells_parent_join h (by decide : '/' ∉ primaryName)
  exact dropInNames_congr tree (respells_dropInDirectory h).components_eq
    (isProper_join_dropInDirectoryName hparent.spelling_ne_nil (hlimit.respell hparent))
    (isProper_join_dropInDirectoryName h hlimit)

/-- In both spellings of a directory the same is read from a drop-in file. -/
theorem readsAlike_join {p q : Path} (h : q.Respells p) {name : Text}
    (hname : dropInEnding <:+ name) (hlimit : IsWithinLimit (p.join name)) :
    ReadsAlike tree.view (p.join name) (q.join name) := by
  have hends {directory : Path} (hne : directory.spelling ≠ []) :
      EndsInName (directory.join name) :=
    endsInName_join hne hname (by decide) (by decide)
  have hcomponents := (h.join name).components_eq.symm
  refine ⟨hcomponents, (tree.view_congr hcomponents ?_ ?_).2.1⟩
  · exact ⟨hends h.spelling_ne_nil_right, hlimit⟩
  · exact ⟨hends h.spelling_ne_nil, hlimit.respell h⟩

/-- From each drop-in file the same is read in both spellings, unless the longer one is too long. -/
theorem forall₂_dropIns (h : root.spelling ≠ [])
    (hlimit : IsWithinLimit (root.join dropInDirectoryName)) :
    List.Forall₂ (fun file file' ↦ ReadsAlike tree.view file file' ∨ ¬ IsWithinLimit file)
      (dropIns tree.view (root.join dropInDirectoryName))
      (dropIns tree.view ((root.join primaryName).parent.join dropInDirectoryName)) := by
  rw [dropIns_eq, dropIns_eq, dropInNames_parent_primaryName tree h hlimit,
    List.forall₂_map_left_iff, List.forall₂_map_right_iff, List.forall₂_same]
  intro name hname
  refine (em (IsWithinLimit ((root.join dropInDirectoryName).join name))).imp_left fun hlong ↦ ?_
  exact readsAlike_join (respells_dropInDirectory h) (mem_dropInNames.mp hname).2.2 hlong

/-- The drop-in files are the same up to spelling, unless there are some and the path to them is too
long in the longer spelling. -/
theorem map_components_dropIns (h : root.spelling ≠ []) :
    (dropIns tree.view (root.join dropInDirectoryName)).map Path.components =
        (dropIns tree.view ((root.join primaryName).parent.join dropInDirectoryName)).map
          Path.components ↔
      IsWithinLimit (root.join dropInDirectoryName) ∨
        dropIns tree.view ((root.join primaryName).parent.join dropInDirectoryName) = [] := by
  by_cases hlimit : IsWithinLimit (root.join dropInDirectoryName)
  · refine ⟨fun _ ↦ .inl hlimit, fun _ ↦ ?_⟩
    rw [dropIns_eq, dropIns_eq, dropInNames_parent_primaryName tree h hlimit, List.map_map,
      List.map_map]
    refine List.map_congr_left fun name _ ↦ ?_
    exact ((respells_dropInDirectory h).join name).components_eq.symm
  · rw [dropIns_eq, dropInNames_of_not_isWithinLimit hlimit, or_iff_right hlimit, List.map_nil,
      List.map_nil, eq_comm, List.map_eq_nil_iff]

/-- A directory that holds a primary file, and that file, have the same options files up to
spelling, unless there are drop-in files, but the path to them through the directory as it is
spelled is too long. With the same files the same is read for every version, or the same failure
reported, unless through the directory one of the files has too long a path. -/
theorem readOptions_join_primaryName
    (hroot : tree.view.isDirectory root) (hfile : tree.view.isRegular (root.join primaryName)) :
    ((optionsFiles tree.view root).map Path.components =
        (optionsFiles tree.view (root.join primaryName)).map Path.components ↔
      IsWithinLimit (root.join dropInDirectoryName) ∨
        optionsFiles tree.view (root.join primaryName) = [root.join primaryName]) ∧
    ((optionsFiles tree.view root).map Path.components =
        (optionsFiles tree.view (root.join primaryName)).map Path.components → ∀ version,
      SameUpToSpelling (readOptions tree.view root version)
          (readOptions tree.view (root.join primaryName) version) ∨
        ∃ file ∈ optionsFiles tree.view root, ¬ IsWithinLimit file ∧
          readOptions tree.view root version = .error (.unreadable file .invalidFilename)) := by
  have hne : root.spelling ≠ [] := spelling_ne_nil_of_kind? (of_decide_eq_true hroot)
  have hsame := @map_components_dropIns tree root hne
  unfold readOptions
  rw [optionsFiles_of_isDirectory hroot, optionsFiles_of_isRegular hfile]
  simp only [List.map_cons, List.cons.injEq, true_and]
  refine ⟨hsame, fun hfiles version ↦ filesOptions_sameUpToSpelling (.cons (.inl ⟨rfl, rfl⟩) ?_)
    version⟩
  by_cases hlimit : IsWithinLimit (root.join dropInDirectoryName)
  · exact forall₂_dropIns hne hlimit
  · have hnil := (hsame.mp hfiles).resolve_left hlimit
    rw [hnil] at hfiles ⊢
    rw [List.map_eq_nil_iff.mp hfiles]
    exact .nil

end

/-! ### A root with separators at its end -/

section

/-- The root `r`, with a separator at its end and some more. -/
def paddedRoot (padding : Nat) : Path := ⟨'r' :: List.replicate (padding + 1) '/'⟩

/-- The name of a drop-in file. -/
def exampleDropIn : Text := "a.options".toList

/-- A tree in which `r` holds a primary file and one drop-in file. -/
def exampleTree : FileTree where
  root := .directory [(['w'], .directory [(['r'], .directory [
    (primaryName, .file (Utf8.encode "-a".toList)),
    (dropInDirectoryName, .directory [(exampleDropIn, .file (Utf8.encode "-b".toList))])])])]
  workingDirectory := [['w']]

/-- The drop-in directory of the primary file, spelled without what pads the root. -/
def plainDropInDirectory : Path := Path.join ⟨['r']⟩ dropInDirectoryName

variable {padding : Nat} {name : Text}

private theorem spelling_paddedRoot (padding : Nat) :
    (paddedRoot padding).spelling = 'r' :: List.replicate padding '/' ++ ['/'] := by
  rw [paddedRoot, List.replicate_succ', List.cons_append]

private theorem spelling_paddedRoot_ne_nil (padding : Nat) : (paddedRoot padding).spelling ≠ [] :=
  List.cons_ne_nil _ _

private theorem stem_paddedRoot (padding : Nat) :
    (paddedRoot padding).stem = 'r' :: List.replicate padding '/' := by
  rw [Path.stem, spelling_paddedRoot, List.getLast?_concat, if_pos rfl, List.dropLast_concat]

private theorem stemLength_paddedRoot (padding : Nat) :
    (paddedRoot padding).stemLength = padding + 1 := by
  rw [Path.stemLength, stem_paddedRoot]
  simp [Utf8.encode, Char.utf8Size, Nat.add_comm]

private theorem pieces_replicate (n : Nat) :
    Text.pieces Path.isSeparator (List.replicate n '/') = List.replicate (n + 1) [] := by
  induction n with
  | zero => rfl
  | succ n ih =>
    rw [List.replicate_succ, Text.pieces, ih]
    rfl

private theorem pieces_cons_replicate (n : Nat) :
    Text.pieces Path.isSeparator ('r' :: List.replicate n '/') = ['r'] :: List.replicate n [] := by
  cases n with
  | zero => rfl
  | succ n =>
    have hpieces := Text.pieces_append_cons (p := Path.isSeparator) (c := '/') rfl ['r']
      (List.replicate n '/')
    rwa [pieces_replicate] at hpieces

private theorem components_paddedRoot (padding : Nat) :
    (paddedRoot padding).components = [.name ['r']] := by
  rw [Path.components_eq_stem (spelling_paddedRoot_ne_nil padding), stem_paddedRoot,
    pieces_cons_replicate]
  simp [Path.componentsOf, Path.isIdle, Path.ofPiece]

private theorem parent_paddedRoot (h : '/' ∉ name) :
    ((paddedRoot padding).join name).parent = ⟨['r']⟩ := by
  have hpieces := Path.dropLast_pieces_join (spelling_paddedRoot_ne_nil padding) h
  rw [stem_paddedRoot, pieces_cons_replicate] at hpieces
  have hkept : Path.keptPieces ['r'] (List.replicate padding []) = [['r']] := by
    simp [Path.keptPieces, List.rdropWhile, Path.isIdle]
  rw [Path.parent_eq hpieces, hkept]
  rfl

private theorem isWithinLimit_join_paddedRoot :
    IsWithinLimit ((paddedRoot padding).join name) ↔
      padding + 1 + (Utf8.encode ('/' :: name)).length ≤ maxPath := by
  rw [IsWithinLimit, Path.length_encode_join (spelling_paddedRoot_ne_nil _), stemLength_paddedRoot]

private theorem steps_paddedRoot (padding : Nat) :
    steps (paddedRoot padding) = [['r']].map .enter ++ [.stay] := by
  rw [steps_eq, if_pos (spelling_paddedRoot padding ▸ List.getLast?_concat), Path.pieces,
    paddedRoot, pieces_cons_replicate]
  simp [stepOfPiece]

private theorem isDirectory_paddedRoot (h : padding + 2 ≤ maxPath) :
    exampleTree.view.isDirectory (paddedRoot padding) := by
  have hlength : (Utf8.encode (paddedRoot padding).spelling).length = padding + 2 := by
    rw [spelling_paddedRoot, ← stem_paddedRoot, Utf8.length_encode_append, ← Path.stemLength,
      stemLength_paddedRoot]
    rfl
  have hlimit := Nat.not_lt.mpr (hlength ▸ h)
  obtain ⟨entries, hnode⟩ : ∃ entries, exampleTree.node? ([['w']] ++ [['r']]) =
    some (.directory entries) := ⟨_, rfl⟩
  have hwalk := exampleTree.walk_names hnode (by simp) (by decide) maxLinks [.stay]
  rw [exampleTree.walk_stay_of_directory hnode, walk] at hwalk
  have hstart : startOf (paddedRoot padding) exampleTree.workingDirectory = [['w']] := rfl
  have hlookup : exampleTree.lookup (paddedRoot padding) = .ok (.directory entries) := by
    rw [lookup, resolve, if_neg (by simp [paddedRoot]), if_neg hlimit, steps_paddedRoot, hstart,
      hwalk]
    simp only [hnode]
  exact isDirectory_of_lookup hlookup

/-- The primary file is found under each root that is not too long for it. -/
theorem lookup_primaryFile (h : IsWithinLimit ((paddedRoot padding).join primaryName)) :
    exampleTree.lookup ((paddedRoot padding).join primaryName) =
      .ok (.file (Utf8.encode "-a".toList)) := by
  refine lookup_names
    ⟨endsInName_join (spelling_paddedRoot_ne_nil _) List.suffix_rfl (by decide) (by decide), h⟩
    [['r'], primaryName] ?_ rfl (by simp) (by decide)
  rw [Path.components_join (spelling_paddedRoot_ne_nil _), components_paddedRoot]
  rfl

private theorem dropInDirectory_paddedRoot :
    ((paddedRoot padding).join primaryName).parent.join dropInDirectoryName =
      plainDropInDirectory := by
  rw [parent_paddedRoot (by decide), plainDropInDirectory]

private theorem isProper_plainDropInDirectory : IsProper plainDropInDirectory :=
  ⟨endsInName_join (by decide) List.suffix_rfl (by decide) (by decide), by decide⟩

private theorem dropInNames_plainDropInDirectory :
    dropInNames exampleTree.view plainDropInDirectory = [exampleDropIn] := by
  have hlookup : exampleTree.lookup plainDropInDirectory =
      .ok (.directory [(exampleDropIn, .file (Utf8.encode "-b".toList))]) :=
    lookup_names isProper_plainDropInDirectory [['r'], dropInDirectoryName] rfl rfl (by simp)
      (by decide)
  have hfilter : [exampleDropIn].filter isDropIn = [exampleDropIn] := by decide
  rw [dropInNames, if_pos (isDirectory_of_lookup hlookup), names_view_of_lookup hlookup,
    List.map_singleton, hfilter, sortNames, List.mergeSort_singleton]

private theorem lookup_plainDropIn :
    exampleTree.lookup (plainDropInDirectory.join exampleDropIn) =
      .ok (.file (Utf8.encode "-b".toList)) := by
  have hending : dropInEnding <:+ exampleDropIn := by decide
  have hproper : IsProper (plainDropInDirectory.join exampleDropIn) :=
    ⟨endsInName_join (by decide) hending (by decide) (by decide), by decide⟩
  exact lookup_names hproper [['r'], dropInDirectoryName, exampleDropIn] rfl rfl (by simp)
    (by decide)

/-- A file that is found gives the options of its lines, if none of these is invalid. -/
theorem fileOptions_of_lookup {tree : FileTree} {file : Path} {content : Bytes}
    (h : tree.lookup file = .ok (.file content))
    (hvalid : ParseOutcome.invalidFrom 1 (contentLines content) = []) (version : Nat) :
    fileOptions tree.view version file =
      .ok (ParseOutcome.optionsFor version (contentLines content)) := by
  have hread : tree.view.read file = .ok content := by
    simp only [view, FileTree.read, h]
  rw [fileOptions_of_ok hread, if_pos hvalid]

private theorem fileOptions_primaryFile
    (h : IsWithinLimit ((paddedRoot padding).join primaryName)) :
    fileOptions exampleTree.view 8 ((paddedRoot padding).join primaryName) =
      .ok ["-a".toList] :=
  fileOptions_of_lookup (lookup_primaryFile h) (by decide) 8

private theorem fileOptions_plainDropIn :
    fileOptions exampleTree.view 8 (plainDropInDirectory.join exampleDropIn) =
      .ok ["-b".toList] :=
  fileOptions_of_lookup lookup_plainDropIn (by decide) 8

private theorem isRegular_primaryFile (h : IsWithinLimit ((paddedRoot padding).join primaryName)) :
    exampleTree.view.isRegular ((paddedRoot padding).join primaryName) := by
  simp [FileView.isRegular, view, kind?, lookup_primaryFile h]

private theorem readOptions_primaryFile
    (h : IsWithinLimit ((paddedRoot padding).join primaryName)) :
    optionsFiles exampleTree.view ((paddedRoot padding).join primaryName) =
        [(paddedRoot padding).join primaryName, plainDropInDirectory.join exampleDropIn] ∧
      readOptions exampleTree.view ((paddedRoot padding).join primaryName) 8 =
        .ok ["-a".toList, "-b".toList] := by
  have hfiles : optionsFiles exampleTree.view ((paddedRoot padding).join primaryName) =
        [(paddedRoot padding).join primaryName, plainDropInDirectory.join exampleDropIn] := by
    rw [optionsFiles_of_isRegular (isRegular_primaryFile h), dropInDirectory_paddedRoot, dropIns_eq,
      dropInNames_plainDropInDirectory]
    rfl
  refine ⟨hfiles, ?_⟩
  rw [readOptions, hfiles]
  simp only [filesOptions, fileOptions_primaryFile h, fileOptions_plainDropIn, Except.map]
  rfl

/-- A root that is too long for its drop-in directory has the primary file only. -/
theorem readOptions_paddedRoot_of_long (hroot : exampleTree.view.isDirectory (paddedRoot padding))
    (h : IsWithinLimit ((paddedRoot padding).join primaryName))
    (hlong : ¬ IsWithinLimit ((paddedRoot padding).join dropInDirectoryName)) :
    optionsFiles exampleTree.view (paddedRoot padding) = [(paddedRoot padding).join primaryName] ∧
      readOptions exampleTree.view (paddedRoot padding) 8 = .ok ["-a".toList] := by
  have hfiles : optionsFiles exampleTree.view (paddedRoot padding) =
      [(paddedRoot padding).join primaryName] := by
    rw [optionsFiles_of_isDirectory hroot, dropIns_eq, dropInNames_of_not_isWithinLimit hlong]
    rfl
  refine ⟨hfiles, ?_⟩
  rw [readOptions, hfiles]
  simp only [filesOptions, fileOptions_primaryFile h, Except.map, List.append_nil]

/-- A root that is too long for its drop-in file alone fails at that file. -/
theorem readOptions_paddedRoot_of_longFile
    (hroot : exampleTree.view.isDirectory (paddedRoot padding))
    (h : IsWithinLimit ((paddedRoot padding).join primaryName))
    (hlimit : IsWithinLimit ((paddedRoot padding).join dropInDirectoryName))
    (hlong : ¬ IsWithinLimit (((paddedRoot padding).join dropInDirectoryName).join exampleDropIn)) :
    readOptions exampleTree.view (paddedRoot padding) 8 =
      .error (.unreadable (((paddedRoot padding).join dropInDirectoryName).join exampleDropIn)
        .invalidFilename) := by
  have hnames := dropInNames_parent_primaryName exampleTree (spelling_paddedRoot_ne_nil padding)
    hlimit
  rw [dropInDirectory_paddedRoot, dropInNames_plainDropInDirectory] at hnames
  rw [readOptions, optionsFiles_of_isDirectory hroot, dropIns_eq, ← hnames]
  simp only [List.map_cons, filesOptions, fileOptions_primaryFile h,
    fileOptions_of_error (read_of_not_isWithinLimit hlong), Except.map]

/-- The root `r//` and its primary file are roots of the same options. -/
theorem readOptions_join_primaryName_padded :
    exampleTree.view.isDirectory (paddedRoot 1) ∧
      exampleTree.view.isRegular ((paddedRoot 1).join primaryName) ∧
      (optionsFiles exampleTree.view (paddedRoot 1)).map Path.components =
        (optionsFiles exampleTree.view ((paddedRoot 1).join primaryName)).map Path.components ∧
      ∀ version,
        SameUpToSpelling (readOptions exampleTree.view (paddedRoot 1) version)
            (readOptions exampleTree.view ((paddedRoot 1).join primaryName) version) ∨
          ∃ file ∈ optionsFiles exampleTree.view (paddedRoot 1), ¬ IsWithinLimit file ∧
            readOptions exampleTree.view (paddedRoot 1) version =
              .error (.unreadable file .invalidFilename) := by
  have hroot := isDirectory_paddedRoot (by decide : 1 + 2 ≤ maxPath)
  have hfile := isRegular_primaryFile
    (by decide : IsWithinLimit ((paddedRoot 1).join primaryName))
  obtain ⟨hfiles, hread⟩ := readOptions_join_primaryName hroot hfile
  have hsame := hfiles.mpr (.inl (by decide))
  exact ⟨hroot, hfile, hsame, hread hsame⟩

/-- With so many separators at the end of a root that the path to its drop-in files is too long, the
root has no drop-in files, while through its primary file it has one. With some fewer, the drop-in
file is found, but cannot be read. -/
theorem readOptions_paddedRoot :
    (exampleTree.view.isDirectory (paddedRoot 4082) ∧
      exampleTree.view.isRegular ((paddedRoot 4082).join primaryName) ∧
      (optionsFiles exampleTree.view (paddedRoot 4082)).map Path.components ≠
        (optionsFiles exampleTree.view ((paddedRoot 4082).join primaryName)).map
          Path.components ∧
      readOptions exampleTree.view (paddedRoot 4082) 8 = .ok ["-a".toList] ∧
      readOptions exampleTree.view ((paddedRoot 4082).join primaryName) 8 =
        .ok ["-a".toList, "-b".toList]) ∧
    exampleTree.view.isDirectory (paddedRoot 4080) ∧
      exampleTree.view.isRegular ((paddedRoot 4080).join primaryName) ∧
      readOptions exampleTree.view (paddedRoot 4080) 8 =
        .error (.unreadable (((paddedRoot 4080).join dropInDirectoryName).join exampleDropIn)
          .invalidFilename) ∧
      readOptions exampleTree.view ((paddedRoot 4080).join primaryName) 8 =
        .ok ["-a".toList, "-b".toList] := by
  have hlong : IsWithinLimit ((paddedRoot 4082).join primaryName) ∧
      ¬ IsWithinLimit ((paddedRoot 4082).join dropInDirectoryName) := by
    simp only [isWithinLimit_join_paddedRoot]
    decide
  have hlongFile : IsWithinLimit ((paddedRoot 4080).join primaryName) ∧
      IsWithinLimit ((paddedRoot 4080).join dropInDirectoryName) ∧
      ¬ IsWithinLimit (((paddedRoot 4080).join dropInDirectoryName).join exampleDropIn) := by
    rw [isWithinLimit_join_paddedRoot, isWithinLimit_join_paddedRoot, IsWithinLimit,
      Path.length_encode_join (Path.spelling_join_ne_nil (spelling_paddedRoot_ne_nil _)),
      Path.stemLength_join (spelling_paddedRoot_ne_nil _), stemLength_paddedRoot]
    decide
  have hroot := isDirectory_paddedRoot (by decide : 4082 + 2 ≤ maxPath)
  have hroot' := isDirectory_paddedRoot (by decide : 4080 + 2 ≤ maxPath)
  obtain ⟨hfiles, hoptions⟩ := readOptions_paddedRoot_of_long hroot hlong.1 hlong.2
  obtain ⟨hfiles', hoptions'⟩ := readOptions_primaryFile hlong.1
  refine ⟨⟨hroot, isRegular_primaryFile hlong.1, ?_, hoptions, hoptions'⟩, hroot',
    isRegular_primaryFile hlongFile.1,
    readOptions_paddedRoot_of_longFile hroot' hlongFile.1 hlongFile.2.1 hlongFile.2.2,
    (readOptions_primaryFile hlongFile.1).2⟩
  rw [hfiles, hfiles']
  intro hsame
  have hlength := congrArg List.length hsame
  cases hlength

end

end Assembly

end LaunchOptions

import LaunchOptions.Assembly
import LaunchOptions.Proofs.ParseOutcome

/-!
# The first faulty file

A file is sound if it can be read and none of its lines is invalid. The options of a root are those
of all its files if they are sound. Otherwise the first file that is not decides alone what is
reported, whatever comes after it.
-/

namespace LaunchOptions.Assembly

/-- The file can be read, and each of its lines has a reading. -/
def IsSound (view : FileView) (file : Path) : Prop :=
  ∃ content, view.read file = .ok content ∧
    ∀ line ∈ contentLines content, OptionLine.classify line ≠ .invalid

/-- The options that the lines of a file give to a version, in line order. -/
def givenBy (view : FileView) (version : Nat) (file : Path) : List Text :=
  match view.read file with
  | .ok content =>
    (contentLines content).filterMap fun line ↦ (OptionLine.classify line).optionFor version
  | .error _ => []

/-- What a file that is not sound is reported with: why it cannot be read, or else all its invalid
lines by their numbers, counted from one. -/
inductive IsFault (view : FileView) (file : Path) : OptionsError → Prop where
  | unreadable {cause : ReadFailure} (h : view.read file = .error cause) :
    IsFault view file (.unreadable file cause)
  | invalidLines {content : Bytes} {lines : InvalidLines} (h : view.read file = .ok content)
    (hne : lines.toList ≠ [])
    (hlines : ∀ n text, lines.get? n = some text ↔
      ∃ i, n = i + 1 ∧ (contentLines content)[i]? = some text ∧
        OptionLine.classify text = .invalid) :
    IsFault view file (.invalidLines file lines)

/-! ### One file -/

/-- A file that cannot be read gives no options. -/
theorem fileOptions_of_error {view : FileView} {version : Nat} {file : Path} {cause : ReadFailure}
    (h : view.read file = .error cause) :
    fileOptions view version file = .error (.unreadable file cause) := by
  simp only [fileOptions, ParseOutcome.ofFile, h]

/-- A file that is read gives its options, or else all of its invalid lines. -/
theorem fileOptions_of_ok {view : FileView} {version : Nat} {file : Path} {content : Bytes}
    (h : view.read file = .ok content) :
    fileOptions view version file =
      if ParseOutcome.invalidFrom 1 (contentLines content) = [] then
        .ok (ParseOutcome.optionsFor version (contentLines content))
      else .error (.invalidLines file (ParseOutcome.invalidLines (contentLines content))) := by
  simp only [fileOptions, ParseOutcome.ofFile, h, ParseOutcome.ofBytes_eq, ParseOutcome.isValid,
    ParseOutcome.ofLines, ParseOutcome.invalidLines, List.isEmpty_iff]

/-- The options of a file are those that its lines give, if it is sound. -/
theorem fileOptions_eq_ok_iff {view : FileView} {version : Nat} {file : Path}
    {options : List Text} :
    fileOptions view version file = .ok options ↔
      IsSound view file ∧ options = givenBy view version file := by
  cases hread : view.read file with
  | error cause => simp [fileOptions_of_error hread, IsSound, hread]
  | ok content =>
    have hsound : IsSound view file ↔ ParseOutcome.invalidFrom 1 (contentLines content) = [] := by
      simp [IsSound, hread, ParseOutcome.invalidFrom_eq_nil_iff]
    rw [fileOptions_of_ok hread, hsound, givenBy, hread]
    split
    · next hnil => simp [hnil, ParseOutcome.optionsFor, eq_comm]
    · next hnil => simp [hnil]

/-- A file is reported with its fault. -/
theorem fileOptions_eq_error_iff {view : FileView} {version : Nat} {file : Path}
    {e : OptionsError} :
    fileOptions view version file = .error e ↔ IsFault view file e := by
  constructor
  · intro h
    cases hread : view.read file with
    | error cause =>
      rw [fileOptions_of_error hread] at h
      cases h
      exact .unreadable hread
    | ok content =>
      rw [fileOptions_of_ok hread] at h
      split at h
      · cases h
      · next hne =>
        cases h
        exact .invalidLines hread hne fun n text ↦ ParseOutcome.get?_invalidLines
  · rintro (⟨hread⟩ | @⟨content, lines, hread, hne, hlines⟩)
    · exact fileOptions_of_error hread
    · -- The numbers and texts that are found determine the map.
      have hmap : lines = ParseOutcome.invalidLines (contentLines content) := by
        apply OrderedMap.ext_get?
        intro n text
        rw [hlines, ParseOutcome.get?_invalidLines]
      rw [hmap] at hne ⊢
      rw [fileOptions_of_ok hread]
      exact if_neg hne

/-- A sound file gives its options. -/
theorem IsSound.fileOptions {view : FileView} {file : Path} (h : IsSound view file)
    (version : Nat) : fileOptions view version file = .ok (givenBy view version file) :=
  fileOptions_eq_ok_iff.mpr ⟨h, rfl⟩

/-- A file with a fault fails with it, for any version. -/
theorem IsFault.fileOptions {view : FileView} {file : Path} {e : OptionsError}
    (h : IsFault view file e) (version : Nat) : fileOptions view version file = .error e :=
  fileOptions_eq_error_iff.mpr h

/-- A file is sound unless it has a fault. -/
theorem isSound_or_exists_isFault (view : FileView) (file : Path) :
    IsSound view file ∨ ∃ e, IsFault view file e := by
  cases h : fileOptions view 0 file with
  | ok options => exact .inl (fileOptions_eq_ok_iff.mp h).1
  | error e => exact .inr ⟨e, fileOptions_eq_error_iff.mp h⟩

/-- A file with a fault is not sound. -/
theorem IsFault.not_isSound {view : FileView} {file : Path} {e : OptionsError}
    (h : IsFault view file e) : ¬ IsSound view file := by
  intro hsound
  have herror := h.fileOptions 0
  rw [hsound.fileOptions] at herror
  cases herror

/-- The fault of a file depends on what is read of it alone. -/
theorem IsFault.congr {view view' : FileView} {file : Path} {e : OptionsError}
    (h : IsFault view file e) (hread : view.read file = view'.read file) :
    IsFault view' file e := by
  cases h with
  | unreadable h => exact .unreadable (hread ▸ h)
  | invalidLines h hne hlines => exact .invalidLines (hread ▸ h) hne hlines

/-! ### Several files -/

/-- Files that are sound give their options one after another. -/
theorem filesOptions_append {view : FileView} {before : List Path}
    (h : ∀ f ∈ before, IsSound view f) (version : Nat) (after : List Path) :
    filesOptions view version (before ++ after) =
      (filesOptions view version after).map (before.flatMap (givenBy view version) ++ ·) := by
  induction before with
  | nil => cases hafter : filesOptions view version after <;> simp [hafter, Except.map]
  | cons file rest ih =>
    have hfile := (h file (by simp)).fileOptions version
    rw [List.cons_append, filesOptions, hfile, ih fun f hf ↦ h f (by simp [hf])]
    cases filesOptions view version after <;> simp [Except.map]

/-- The first file that is not sound decides. -/
theorem filesOptions_of_isFault {view : FileView} {before : List Path} {file : Path}
    {e : OptionsError} (h : ∀ f ∈ before, IsSound view f) (hfault : IsFault view file e)
    (version : Nat) (after : List Path) :
    filesOptions view version (before ++ file :: after) = .error e := by
  rw [filesOptions_append h, filesOptions, hfault.fileOptions]
  rfl

/-- Sound files give the options of them all. -/
theorem filesOptions_of_isSound {view : FileView} {files : List Path}
    (h : ∀ f ∈ files, IsSound view f) (version : Nat) :
    filesOptions view version files = .ok (files.flatMap (givenBy view version)) := by
  have happend := filesOptions_append h version []
  rw [List.append_nil] at happend
  rw [happend, filesOptions]
  simp [Except.map]

/-- Among some files there is a first one that is not sound, unless all are. -/
theorem exists_first_fault (view : FileView) (files : List Path) :
    (∀ f ∈ files, IsSound view f) ∨
      ∃ before file after e, files = before ++ file :: after ∧ (∀ f ∈ before, IsSound view f) ∧
        IsFault view file e := by
  induction files with
  | nil => exact .inl (by simp)
  | cons file rest ih =>
    rcases isSound_or_exists_isFault view file with hfile | ⟨e, hfault⟩
    · rcases ih with hrest | ⟨before, f, after, e, rfl, hbefore, hfault⟩
      · exact .inl (List.forall_mem_cons.mpr ⟨hfile, hrest⟩)
      · exact .inr ⟨file :: before, f, after, e, rfl, List.forall_mem_cons.mpr ⟨hfile, hbefore⟩,
          hfault⟩
    · exact .inr ⟨[], file, rest, e, rfl, by simp, hfault⟩

/-- The options of a root are those of all its files, each of which is sound. -/
theorem readOptions_eq_ok_iff {view : FileView} {root : Path} {version : Nat}
    {options : List Text} :
    readOptions view root version = .ok options ↔
      (∀ file ∈ Discovery.optionsFiles view root, IsSound view file) ∧
        options = (Discovery.optionsFiles view root).flatMap (givenBy view version) := by
  unfold readOptions
  rcases exists_first_fault view (Discovery.optionsFiles view root) with
    hsound | ⟨before, file, after, e, hfiles, hbefore, hfault⟩
  · rw [filesOptions_of_isSound hsound]
    simp only [Except.ok.injEq]
    exact ⟨fun h ↦ ⟨hsound, h.symm⟩, fun h ↦ h.2.symm⟩
  · rw [hfiles, filesOptions_of_isFault hbefore hfault]
    constructor
    · rintro ⟨⟩
    · rintro ⟨hsound, -⟩
      exact absurd (hsound file (by simp)) hfault.not_isSound

/-- A root is reported with the fault of the first of its files that is not sound. -/
theorem readOptions_eq_error_iff {view : FileView} {root : Path} {version : Nat}
    {e : OptionsError} :
    readOptions view root version = .error e ↔
      ∃ before file after, Discovery.optionsFiles view root = before ++ file :: after ∧
        (∀ f ∈ before, IsSound view f) ∧ IsFault view file e := by
  constructor
  · intro h
    rcases exists_first_fault view (Discovery.optionsFiles view root) with
      hsound | ⟨before, file, after, e', hfiles, hbefore, hfault⟩
    · rw [readOptions, filesOptions_of_isSound hsound] at h
      cases h
    · rw [readOptions, hfiles, filesOptions_of_isFault hbefore hfault] at h
      cases h
      exact ⟨before, file, after, hfiles, hbefore, hfault⟩
  · rintro ⟨before, file, after, hfiles, hbefore, hfault⟩
    rw [readOptions, hfiles, filesOptions_of_isFault hbefore hfault]

/-- The options of a root are those of all its files if these are sound. Otherwise the first file
that is not sound is reported, and nothing else matters to the report: neither what the files before
it give, nor the files after it, nor the version. -/
theorem readOptions_failFast (view : FileView) (root : Path) (version : Nat) :
    (∀ options, readOptions view root version = .ok options ↔
      (∀ file ∈ Discovery.optionsFiles view root, IsSound view file) ∧
        options = (Discovery.optionsFiles view root).flatMap (givenBy view version)) ∧
    (∀ e, readOptions view root version = .error e ↔
      ∃ before file after, Discovery.optionsFiles view root = before ++ file :: after ∧
        (∀ f ∈ before, IsSound view f) ∧ IsFault view file e) ∧
    ∀ (view' : FileView) (root' : Path) (version' : Nat) (before after after' : List Path)
      (file : Path),
      Discovery.optionsFiles view root = before ++ file :: after →
      Discovery.optionsFiles view' root' = before ++ file :: after' →
      (∀ f ∈ before, IsSound view f) → (∀ f ∈ before, IsSound view' f) →
      view.read file = view'.read file → ¬ IsSound view file →
      ∃ e, readOptions view root version = .error e ∧
        readOptions view' root' version' = .error e := by
  refine ⟨fun _ ↦ readOptions_eq_ok_iff, fun _ ↦ readOptions_eq_error_iff, ?_⟩
  intro view' root' version' before after after' file hfiles hfiles' hbefore hbefore' hread hnot
  obtain ⟨e, hfault⟩ := (isSound_or_exists_isFault view file).resolve_left hnot
  refine ⟨e, ?_, ?_⟩
  · exact readOptions_eq_error_iff.mpr ⟨before, file, after, hfiles, hbefore, hfault⟩
  · exact readOptions_eq_error_iff.mpr
      ⟨before, file, after', hfiles', hbefore', hfault.congr hread⟩

end LaunchOptions.Assembly

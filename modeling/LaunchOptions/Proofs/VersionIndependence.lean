import LaunchOptions.Proofs.FailFast

/-!
# What the version decides

Every option in the files of a root is for a range of versions or for them all. A version only
selects among these options. Which options there are to select from, and whether reading fails and
with what, does not depend on it.
-/

namespace LaunchOptions

/-- An option with the range of versions that it is for, or with none if it is for them all. -/
structure GatedOption where
  range : Option VersionRange
  option : Text
  deriving DecidableEq, Repr

namespace GatedOption

/-- The option is for a version. -/
def IsFor (version : Nat) (gated : GatedOption) : Prop :=
  ∀ range ∈ gated.range, range.lower ≤ version ∧ version ≤ range.upper

instance (version : Nat) : DecidablePred (IsFor version) :=
  fun gated ↦ inferInstanceAs (Decidable (∀ range ∈ gated.range, _))

/-- The options among some that are for a version, in their order. -/
def select (version : Nat) (options : List GatedOption) : List Text :=
  (options.filter (IsFor version)).map GatedOption.option

/-- Options are selected by each part for itself. -/
theorem select_flatMap {α : Type} (version : Nat) (parts : List α) (f : α → List GatedOption) :
    select version (parts.flatMap f) = parts.flatMap fun part ↦ select version (f part) := by
  simp only [select, List.filter_flatMap, List.map_flatMap]

end GatedOption

/-- The option of a line, with the versions that it is for. -/
def OptionLine.gatedOption? : OptionLine → Option GatedOption
  | .unconditional option => some ⟨none, option⟩
  | .conditional range option => some ⟨some range, option⟩
  | .comment | .blank | .invalid => none

/-- A line gives its option to the versions that it is for. -/
theorem OptionLine.optionFor_eq_select (line : OptionLine) (version : Nat) :
    (line.optionFor version).toList = GatedOption.select version line.gatedOption?.toList := by
  cases line with
  | unconditional option => simp [optionFor, gatedOption?, GatedOption.select, GatedOption.IsFor]
  | conditional range option =>
    by_cases h : range.lower ≤ version ∧ version ≤ range.upper
    · simp [optionFor, gatedOption?, GatedOption.select, GatedOption.IsFor, h]
    · simp [optionFor, gatedOption?, GatedOption.select, GatedOption.IsFor, h]
  | comment => rfl
  | blank => rfl
  | invalid => rfl

namespace Assembly

/-- The options in a file, in line order. -/
def gatedOptionsOf (view : FileView) (file : Path) : List GatedOption :=
  match view.read file with
  | .ok content =>
    (contentLines content).filterMap fun line ↦ (OptionLine.classify line).gatedOption?
  | .error _ => []

/-- The options in the files of a root, file after file. -/
def gatedOptions (view : FileView) (root : Path) : List GatedOption :=
  (Discovery.optionsFiles view root).flatMap (gatedOptionsOf view)

/-- A file gives a version those options in it that are for the version. -/
theorem givenBy_eq_select (view : FileView) (version : Nat) (file : Path) :
    givenBy view version file = GatedOption.select version (gatedOptionsOf view file) := by
  unfold givenBy gatedOptionsOf
  cases view.read file with
  | error cause => rfl
  | ok content =>
    dsimp only
    rw [List.filterMap_eq_flatMap_toList, List.filterMap_eq_flatMap_toList,
      GatedOption.select_flatMap]
    simp only [OptionLine.optionFor_eq_select]

/-- The options that are read for a version are selected from those in the files. -/
theorem readOptions_eq_select {view : FileView} {root : Path}
    (h : ∀ file ∈ Discovery.optionsFiles view root, IsSound view file) (version : Nat) :
    readOptions view root version = .ok (GatedOption.select version (gatedOptions view root)) := by
  rw [readOptions_eq_ok_iff, gatedOptions, GatedOption.select_flatMap]
  exact ⟨h, List.flatMap_congr fun file _ ↦ (givenBy_eq_select view version file).symm⟩

/-- Reading the options of a root fails for one version exactly if it fails for another, and in the
same way. Where it does not fail, there are options from which those for each version are
selected, whatever the version. -/
theorem readOptions_version_independent (view : FileView) (root : Path) :
    (∀ version version' e, readOptions view root version = .error e ↔
      readOptions view root version' = .error e) ∧
    ((∃ version options, readOptions view root version = .ok options) →
      ∀ version, readOptions view root version =
        .ok (GatedOption.select version (gatedOptions view root))) := by
  constructor
  · intro version version' e
    rw [readOptions_eq_error_iff, readOptions_eq_error_iff]
  · rintro ⟨version, options, h⟩
    exact readOptions_eq_select (readOptions_eq_ok_iff.mp h).1

end Assembly

end LaunchOptions

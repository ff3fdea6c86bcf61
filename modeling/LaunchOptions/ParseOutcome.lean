import LaunchOptions.LineSource
import LaunchOptions.OptionLine
import LaunchOptions.OptionsError

/-!
# The outcome of parsing an options file

Every line counts once: it gives an option to the version in question, it is recorded as invalid
under its number, or it gives nothing.

Specification: `SPEC_FULL.md`, sections 3 and 4.2 (processing).
-/

namespace LaunchOptions

/-- What the lines of a file give to a version.
`SPEC_FULL.md`, section 3. -/
structure ParseOutcome where
  /-- The options that apply, in line order. -/
  options : List Text
  /-- The lines without a reading. -/
  invalid : InvalidLines

namespace ParseOutcome

/-- Whether every line has a reading. -/
def isValid (outcome : ParseOutcome) : Bool :=
  outcome.invalid.toList.isEmpty

/-- The invalid ones of some lines, the first of which has the number `n`. -/
def invalidFrom (n : Nat) : List Text → List (Nat × Text)
  | [] => []
  | line :: rest =>
    if (OptionLine.classify line).isInvalid then (n, line) :: invalidFrom (n + 1) rest
    else invalidFrom (n + 1) rest

/-- Invalid lines are numbered from the first line on. -/
theorem le_of_mem_invalidFrom {n : Nat} {lines : List Text} {e : Nat × Text}
    (h : e ∈ invalidFrom n lines) : n ≤ e.1 := by
  induction lines generalizing n with
  | nil => simp [invalidFrom] at h
  | cons line rest ih =>
    simp only [invalidFrom] at h
    split at h
    · rcases List.mem_cons.mp h with rfl | h
      · exact Nat.le_refl _
      · exact Nat.le_of_succ_le (ih h)
    · exact Nat.le_of_succ_le (ih h)

/-- Invalid lines are listed by ascending number. -/
theorem ascending_invalidFrom (n : Nat) (lines : List Text) :
    (invalidFrom n lines).Pairwise (fun a b ↦ compare a.1 b.1 = .lt) := by
  induction lines generalizing n with
  | nil => exact .nil
  | cons line rest ih =>
    simp only [invalidFrom]
    split
    · refine List.pairwise_cons.mpr ⟨fun e he ↦ ?_, ih (n + 1)⟩
      exact Nat.compare_eq_lt.mpr (le_of_mem_invalidFrom he)
    · exact ih (n + 1)

/-- The invalid ones of the lines of a file. -/
def invalidLines (lines : List Text) : InvalidLines :=
  ⟨invalidFrom 1 lines, ascending_invalidFrom 1 lines⟩

/-- The options that some lines give to a version. -/
def optionsFor (version : Nat) (lines : List Text) : List Text :=
  lines.filterMap (fun line ↦ (OptionLine.classify line).optionFor version)

/-- The outcome for the lines of a file. -/
def ofLines (version : Nat) (lines : List Text) : ParseOutcome :=
  ⟨optionsFor version lines, invalidLines lines⟩

/-- The outcome for a source of lines, or `none` if the source breaks. -/
def ofSource? (version : Nat) (source : LineSource) : Option ParseOutcome :=
  source.lines?.map (ofLines version)

/-- The outcome for the content of a file. -/
def ofBytes (version : Nat) (content : Bytes) : ParseOutcome :=
  (ofSource? version (.ofBytes content)).getD (ofLines version [])

end ParseOutcome

end LaunchOptions

import LaunchOptions.Proofs.ParseOutcome

/-!
# What becomes of each line

The lines that a source gives up to its first end of file decide what parsing yields, unless the
source breaks before it. Each of these lines has one fate. Those that are invalid are recorded,
those that apply give their options, and none of them changes what becomes of another.
-/

namespace LaunchOptions

/-- What can become of a line when a file is parsed for a version. -/
inductive LineFate where
  | comment
  | blank
  | invalid
  /-- The line gives its option. -/
  | applied
  /-- The option of the line is for other versions. -/
  | notApplicable
  deriving DecidableEq, Repr

/-- What becomes of a line. -/
def OptionLine.fate (version : Nat) : OptionLine → LineFate
  | .comment => .comment
  | .blank => .blank
  | .invalid => .invalid
  | .unconditional _ => .applied
  | .conditional range _ => if range.contains version then .applied else .notApplicable

/-- A line is applied if it gives an option. -/
theorem OptionLine.fate_eq_applied_iff {version : Nat} (line : OptionLine) :
    line.fate version = .applied ↔ (line.optionFor version).isSome := by
  cases line with
  | conditional range option => by_cases h : range.contains version <;> simp [fate, optionFor, h]
  | comment => simp [fate, optionFor]
  | blank => simp [fate, optionFor]
  | unconditional option => simp [fate, optionFor]
  | invalid => simp [fate, optionFor]

/-- A line is refused exactly if it has no reading. -/
theorem OptionLine.fate_eq_invalid_iff {version : Nat} (line : OptionLine) :
    line.fate version = .invalid ↔ line = .invalid := by
  cases line with
  | conditional range option => by_cases h : range.contains version <;> simp [fate, h]
  | comment => simp [fate]
  | blank => simp [fate]
  | unconditional option => simp [fate]
  | invalid => simp [fate]

namespace ParseOutcome

/-- The number of lines with a fate. -/
def countOf (version : Nat) (fate : LineFate) (lines : List Text) : Nat :=
  lines.countP fun line ↦ (OptionLine.classify line).fate version = fate

/-- An outcome accounts for some lines: it has the options that the lines without the invalid ones
give, in their order, and exactly the invalid lines by their numbers, in ascending order. Every line
is counted once. -/
structure Accounts (version : Nat) (lines : List Text) (outcome : ParseOutcome) : Prop where
  options : outcome.options =
    (lines.filter (OptionLine.classify · ≠ .invalid)).filterMap fun line ↦
      (OptionLine.classify line).optionFor version
  invalid (n : Nat) (text : Text) : outcome.invalid.get? n = some text ↔
    ∃ i, n = i + 1 ∧ lines[i]? = some text ∧ OptionLine.classify text = .invalid
  ascending : outcome.invalid.toList.Pairwise (·.1 < ·.1)
  count_applied : outcome.options.length = countOf version .applied lines
  count_invalid : outcome.invalid.size = countOf version .invalid lines
  count : countOf version .comment lines + countOf version .blank lines +
    countOf version .invalid lines + countOf version .applied lines +
    countOf version .notApplicable lines = lines.length

/-! ### The lines of a source -/

/-- The results up to the first end of file are lines, and these are read; or a failure comes
first, and nothing is read. -/
theorem exists_lines_calls (source : LineSource) :
    ∃ lines : List Text, (∀ i (h : i < lines.length), source.call i = .line lines[i]) ∧
      ((source.call lines.length = .failed ∧ source.lines? = none) ∨
        (source.call lines.length = .atEnd ∧ source.lines? = some lines)) := by
  fun_induction LineSource.lines? source with
  | case1 source hend => exact ⟨[], by simp, .inr ⟨hend, rfl⟩⟩
  | case2 source hfailed => exact ⟨[], by simp, .inl ⟨hfailed, rfl⟩⟩
  | case3 source text hline hnil =>
    rw [LineSource.next_of_deliveries_nil hnil] at hline
    cases hline
  | case4 source text hline _ ih =>
    obtain ⟨lines, hlines, hlast⟩ := ih
    refine ⟨text :: lines, ?_, ?_⟩
    · intro i hi
      cases i with
      | zero => exact hline
      | succ i => exact hlines i (Nat.lt_of_succ_lt_succ hi)
    · rcases hlast with ⟨hfailed, hnone⟩ | ⟨hend, hsome⟩
      · exact .inl ⟨hfailed, by rw [hnone]; rfl⟩
      · exact .inr ⟨hend, by rw [hsome]; rfl⟩

/-! ### Accounts of lines -/

/-- Invalid lines give no option. -/
theorem optionsFor_eq (version : Nat) (lines : List Text) :
    optionsFor version lines =
      (lines.filter (OptionLine.classify · ≠ .invalid)).filterMap fun line ↦
        (OptionLine.classify line).optionFor version := by
  rw [optionsFor, List.filterMap_filter]
  refine List.filterMap_congr fun line _ ↦ ?_
  by_cases h : OptionLine.classify line = .invalid
  · simp [h, OptionLine.optionFor]
  · simp [h]

private theorem length_optionsFor (version : Nat) (lines : List Text) :
    (optionsFor version lines).length = countOf version .applied lines := by
  rw [optionsFor, List.length_filterMap_eq_countP, countOf]
  simp only [OptionLine.fate_eq_applied_iff, Bool.decide_eq_true]

private theorem length_invalidFrom (version first : Nat) (lines : List Text) :
    (invalidFrom first lines).length = countOf version .invalid lines := by
  induction lines generalizing first with
  | nil => rfl
  | cons line rest ih =>
    rw [countOf, List.countP_cons, ← countOf, ← ih (first + 1), invalidFrom]
    simp only [OptionLine.fate_eq_invalid_iff, OptionLine.isInvalid_iff, decide_eq_true_eq]
    split <;> rfl

/-- Every line has one fate. -/
theorem count_fates (version : Nat) (lines : List Text) :
    countOf version .comment lines + countOf version .blank lines +
      countOf version .invalid lines + countOf version .applied lines +
      countOf version .notApplicable lines = lines.length := by
  induction lines with
  | nil => rfl
  | cons line rest ih =>
    simp only [countOf, List.countP_cons, List.length_cons] at ih ⊢
    cases (OptionLine.classify line).fate version <;> simp <;> omega

/-- The outcome for some lines accounts for them. -/
theorem accounts_ofLines (version : Nat) (lines : List Text) :
    Accounts version lines (ofLines version lines) where
  options := optionsFor_eq version lines
  invalid _ _ := get?_invalidLines
  ascending := (ascending_invalidFrom 1 lines).imp Nat.compare_eq_lt.mp
  count_applied := length_optionsFor version lines
  count_invalid := length_invalidFrom version 1 lines
  count := count_fates version lines

/-- The options of an outcome that accounts for some lines are those of its lines. -/
theorem Accounts.options_eq {version : Nat} {lines : List Text} {outcome : ParseOutcome}
    (h : Accounts version lines outcome) : outcome.options = optionsFor version lines :=
  h.options.trans (optionsFor_eq version lines).symm

private theorem optionsFor_append_cons (version : Nat) (before : List Text) (line : Text)
    (after : List Text) :
    optionsFor version (before ++ line :: after) =
      optionsFor version before ++ ((OptionLine.classify line).optionFor version).toList ++
        optionsFor version after := by
  rw [optionsFor, List.filterMap_append, List.filterMap_cons, List.append_assoc]
  cases (OptionLine.classify line).optionFor version <;> rfl

/-- What is recorded under the number of one line does not depend on another line. -/
theorem Accounts.get?_eq {version n : Nat} {before after : List Text} {line other : Text}
    {outcome outcome' : ParseOutcome} (h : Accounts version (before ++ line :: after) outcome)
    (h' : Accounts version (before ++ other :: after) outcome') (hn : n ≠ before.length + 1) :
    outcome.invalid.get? n = outcome'.invalid.get? n := by
  ext text
  rw [h.invalid, h'.invalid]
  refine exists_congr fun i ↦ and_congr_right ?_
  rintro rfl
  have hi : i ≠ before.length := fun hi ↦ hn (by rw [hi])
  have hline (x : Text) : (before ++ x :: after)[i]? =
      if i < before.length then before[i]? else after[i - (before.length + 1)]? := by
    rw [List.getElem?_append]
    split
    · rfl
    · rw [List.getElem?_cons, if_neg (by omega), Nat.sub_sub]
  rw [hline, hline]

/-! ### Accounts of sources -/

/-- A source breaks if a failure comes before its first end of file. -/
theorem ofSource?_eq_none_iff {version : Nat} {source : LineSource} :
    ofSource? version source = none ↔
      ∃ k, source.call k = .failed ∧ ∀ i < k, source.call i ≠ .atEnd := by
  obtain ⟨lines, hlines, hlast⟩ := exists_lines_calls source
  rw [ofSource?, Option.map_eq_none_iff]
  constructor
  · intro hnone
    rcases hlast with ⟨hfailed, -⟩ | ⟨-, hsome⟩
    · refine ⟨lines.length, hfailed, fun i hi hend ↦ ?_⟩
      rw [hlines i hi] at hend
      cases hend
    · rw [hnone] at hsome
      cases hsome
  · rintro ⟨k, hfailed, hbefore⟩
    rcases hlast with ⟨-, hnone⟩ | ⟨hend, -⟩
    · exact hnone
    · -- A failure is not a line, so it could only come after the end of file.
      rcases Nat.lt_trichotomy k lines.length with hk | rfl | hk
      · rw [hlines k hk] at hfailed
        cases hfailed
      · rw [hend] at hfailed
        cases hfailed
      · exact absurd hend (hbefore _ hk)

/-- A source that breaks before its first end of file gives no outcome, and only such a source
gives none. Any other one gives the outcome that accounts for its lines up to there. If one of these
lines is invalid, then the options are those of the lines before it and after it; and if another
line takes its place, then these stay, as does what is recorded under other numbers. -/
theorem ofSource?_accounts (version : Nat) :
    (∀ source : LineSource,
      (ofSource? version source = none ↔
        ∃ k, source.call k = .failed ∧ ∀ i < k, source.call i ≠ .atEnd) ∧
      ∃ lines : List Text, (∀ i (h : i < lines.length), source.call i = .line lines[i]) ∧
        ((source.call lines.length = .failed ∧ ofSource? version source = none) ∨
          (source.call lines.length = .atEnd ∧
            ∃ outcome, ofSource? version source = some outcome ∧
              Accounts version lines outcome))) ∧
    ∀ (before after : List Text) (line other : Text) (outcome outcome' : ParseOutcome),
      Accounts version (before ++ line :: after) outcome → OptionLine.classify line = .invalid →
      Accounts version (before ++ other :: after) outcome' →
      outcome.options = optionsFor version before ++ optionsFor version after ∧
      outcome'.options = optionsFor version before ++
        ((OptionLine.classify other).optionFor version).toList ++ optionsFor version after ∧
      ∀ n, n ≠ before.length + 1 → outcome.invalid.get? n = outcome'.invalid.get? n := by
  refine ⟨fun source ↦ ⟨ofSource?_eq_none_iff, ?_⟩, ?_⟩
  · obtain ⟨lines, hlines, ⟨hfailed, hnone⟩ | ⟨hend, hsome⟩⟩ := exists_lines_calls source
    · exact ⟨lines, hlines, .inl ⟨hfailed, by rw [ofSource?, hnone, Option.map_none]⟩⟩
    · exact ⟨lines, hlines, .inr ⟨hend, ofLines version lines,
        by rw [ofSource?, hsome, Option.map_some], accounts_ofLines version lines⟩⟩
  · intro before after line other outcome outcome' h hline h'
    refine ⟨?_, ?_, fun n hn ↦ h.get?_eq h' hn⟩
    · rw [h.options_eq, optionsFor_append_cons, hline]
      simp [OptionLine.optionFor]
    · rw [h'.options_eq, optionsFor_append_cons]

/-- An invalid line between an option and a gated one, which is replaced by an option; and a source
that breaks after its first line. -/
theorem ofSource?_accounts_invalidLine :
    OptionLine.classify ['x'] = .invalid ∧
      Accounts 11 ([['-', 'a']] ++ ['x'] :: [['9', ':', '-', 'b'], ['y']])
        (ofLines 11 ([['-', 'a']] ++ ['x'] :: [['9', ':', '-', 'b'], ['y']])) ∧
      Accounts 11 ([['-', 'a']] ++ ['-', 'c'] :: [['9', ':', '-', 'b'], ['y']])
        (ofLines 11 ([['-', 'a']] ++ ['-', 'c'] :: [['9', ':', '-', 'b'], ['y']])) ∧
      (ofLines 11 ([['-', 'a']] ++ ['x'] :: [['9', ':', '-', 'b'], ['y']])).options =
        optionsFor 11 [['-', 'a']] ++ optionsFor 11 [['9', ':', '-', 'b'], ['y']] ∧
      (ofLines 11 ([['-', 'a']] ++ ['x'] :: [['9', ':', '-', 'b'], ['y']])).invalid.get? 4 =
        (ofLines 11 ([['-', 'a']] ++ ['-', 'c'] :: [['9', ':', '-', 'b'], ['y']])).invalid.get? 4 ∧
      ofSource? 11 ⟨[.chunk [45, 97, 10], .broken], false⟩ = none := by
  obtain ⟨hsource, hlines⟩ := ofSource?_accounts 11
  have hinvalid : OptionLine.classify ['x'] = .invalid := by decide
  have h := accounts_ofLines 11 ([['-', 'a']] ++ ['x'] :: [['9', ':', '-', 'b'], ['y']])
  have h' := accounts_ofLines 11 ([['-', 'a']] ++ ['-', 'c'] :: [['9', ':', '-', 'b'], ['y']])
  obtain ⟨hoptions, -, hget⟩ := hlines _ _ _ _ _ _ h hinvalid h'
  refine ⟨hinvalid, h, h', hoptions, hget 4 (by decide), ?_⟩
  have hfirst : (LineSource.mk [.chunk [45, 97, 10], .broken] false).call 0 ≠ .atEnd := by
    decide
  refine (hsource _).1.mpr ⟨1, by decide, fun i hi ↦ ?_⟩
  obtain rfl : i = 0 := Nat.lt_one_iff.mp hi
  exact hfirst

end ParseOutcome

end LaunchOptions

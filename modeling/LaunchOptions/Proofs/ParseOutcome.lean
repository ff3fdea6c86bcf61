import LaunchOptions.ParseOutcome
import LaunchOptions.Proofs.ContentLines
import LaunchOptions.Proofs.OrderedMap

/-!
# Outcomes, line by line

What is recorded of the lines of a content: the invalid ones are exactly those that are found in the
map, numbered from one.
-/

namespace LaunchOptions.ParseOutcome

/-- The outcome for a content is that of its lines. -/
theorem ofBytes_eq (version : Nat) (content : Bytes) :
    ofBytes version content = ofLines version (contentLines content) := by
  rw [ofBytes, ofSource?, LineSource.lines?_ofBytes]
  rfl

/-- The invalid lines are all of them, each under its number. -/
theorem mem_invalidFrom_iff {first n : Nat} {lines : List Text} {text : Text} :
    (n, text) ∈ invalidFrom first lines ↔
      ∃ i, n = first + i ∧ lines[i]? = some text ∧ OptionLine.classify text = .invalid := by
  induction lines generalizing first with
  | nil => simp [invalidFrom]
  | cons line rest ih =>
    have htail : (n, text) ∈ invalidFrom (first + 1) rest ↔
        ∃ i, n = first + (i + 1) ∧ (line :: rest)[i + 1]? = some text ∧
          OptionLine.classify text = .invalid := by
      rw [ih]
      simp only [List.getElem?_cons_succ, Nat.add_assoc, Nat.add_comm 1]
    -- The first line has the first index, and the others have the indices after it.
    rw [← Nat.or_exists_add_one, ← htail, invalidFrom]
    split
    · next hline =>
      rw [OptionLine.isInvalid_iff] at hline
      rw [List.mem_cons]
      refine or_congr_left ?_
      constructor
      · rintro ⟨⟩
        exact ⟨rfl, rfl, hline⟩
      · rintro ⟨rfl, htext, -⟩
        cases htext
        rfl
    · next hline =>
      rw [OptionLine.isInvalid_iff] at hline
      constructor
      · exact .inr
      · rintro (⟨-, htext, hinvalid⟩ | hmem)
        · cases htext
          exact absurd hinvalid hline
        · exact hmem

/-- The map of invalid lines holds exactly the invalid lines, numbered from one. -/
theorem get?_invalidLines {n : Nat} {lines : List Text} {text : Text} :
    (invalidLines lines).get? n = some text ↔
      ∃ i, n = i + 1 ∧ lines[i]? = some text ∧ OptionLine.classify text = .invalid := by
  rw [OrderedMap.get?_eq_some_iff]
  change (n, text) ∈ invalidFrom 1 lines ↔ _
  rw [mem_invalidFrom_iff]
  simp only [Nat.add_comm 1]

/-- There are no invalid lines exactly if each line has a reading. -/
theorem invalidFrom_eq_nil_iff (first : Nat) {lines : List Text} :
    invalidFrom first lines = [] ↔ ∀ line ∈ lines, OptionLine.classify line ≠ .invalid := by
  induction lines generalizing first with
  | nil => simp [invalidFrom]
  | cons line rest ih =>
    rw [List.forall_mem_cons, ← ih (first + 1), invalidFrom]
    split
    · next hline => simp [OptionLine.isInvalid_iff.mp hline]
    · next hline => simp [mt OptionLine.isInvalid_iff.mpr hline]

end LaunchOptions.ParseOutcome

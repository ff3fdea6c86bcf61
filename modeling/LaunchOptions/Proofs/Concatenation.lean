import LaunchOptions.Proofs.DecodedLines
import LaunchOptions.Proofs.ParseOutcome

/-!
# Contents put together

Between two contents there is a seam if a line ends where the one meets the other. Then the lines of
both together are the lines of the one and the lines of the other, and so are the options and the
invalid lines, whose numbers go on where those of the first content end. A content may be changed
between two seams, and nothing else changes with it.
-/

namespace LaunchOptions

open LineSource (isTerminator lineFeed carriageReturn dropLineFeed Delivers)

/-- A line ends between two contents: the first one is empty, or it ends with a terminator to which
no line feed of the second one belongs. -/
def IsSeam (before after : Bytes) : Prop :=
  before = [] ∨ before.getLast? = some lineFeed ∨
    before.getLast? = some carriageReturn ∧ after.head? ≠ some lineFeed

/-- What belongs to a terminator is found in the bytes next to it. -/
theorem afterTerminator_append {terminator : UInt8} {between after : Bytes}
    (h : between = [] → terminator = carriageReturn → after.head? ≠ some lineFeed) :
    afterTerminator terminator (between ++ after) =
      afterTerminator terminator between ++ after := by
  unfold afterTerminator
  split
  · next hreturn =>
    cases between with
    | nil =>
      cases after with
      | nil => rfl
      | cons b rest =>
        have hb : b ≠ lineFeed := by simpa using h rfl hreturn
        simp [dropLineFeed, hb]
    | cons b rest =>
      by_cases hb : b = lineFeed
      · simp [dropLineFeed, hb]
      · simp [dropLineFeed, hb]
  · rfl

private theorem afterTerminator_isSuffix (terminator : UInt8) (after : Bytes) :
    afterTerminator terminator after <:+ after := by
  rcases afterTerminator_cases terminator after with ⟨-, h⟩ | ⟨-, h⟩
  · exact ⟨[lineFeed], h.symm⟩
  · exact ⟨[], h⟩

/-- A line before a seam may be taken off. -/
theorem IsSeam.of_line {line between after : Bytes} {terminator : UInt8}
    (h : IsSeam (line ++ terminator :: between) after) :
    IsSeam (afterTerminator terminator between) after := by
  by_cases hnil : afterTerminator terminator between = []
  · exact .inl hnil
  · obtain ⟨skipped, hskipped⟩ := afterTerminator_isSuffix terminator between
    have hlast : (line ++ terminator :: between).getLast? =
        (afterTerminator terminator between).getLast? := by
      rw [← hskipped, ← List.cons_append, ← List.append_assoc,
        List.getLast?_append_of_ne_nil _ hnil]
      rw [hskipped]
    rw [IsSeam, hlast] at h
    exact .inr (h.resolve_left (by simp))

/-- At a seam the lines of two contents are put together. -/
theorem contentLines_append_of_isSeam {before after : Bytes} (h : IsSeam before after) :
    contentLines (before ++ after) = contentLines before ++ contentLines after := by
  induction before using contentLines_induction with
  | rest line hline =>
    -- Bytes without a terminator end with none, so there are no bytes.
    obtain rfl : line = [] := by
      have hlast {terminator : UInt8} (ht : isTerminator terminator)
          (hlast : line.getLast? = some terminator) : line = [] := by
        rw [hline terminator (List.mem_of_getLast? hlast)] at ht
        cases ht
      rcases h with hnil | hfeed | ⟨hreturn, -⟩
      · exact hnil
      · exact hlast (by decide) hfeed
      · exact hlast (by decide) hreturn
    rfl
  | line line terminator between hline ht ih =>
    have hnext : between = [] → terminator = carriageReturn → after.head? ≠ some lineFeed := by
      rintro rfl rfl
      rcases h with hnil | hfeed | ⟨-, hafter⟩
      · simp at hnil
      · simp [lineFeed, carriageReturn] at hfeed
      · exact hafter
    rw [List.append_assoc, List.cons_append, contentLines_append hline ht,
      contentLines_append hline ht, afterTerminator_append hnext, ih h.of_line,
      List.cons_append]

namespace ParseOutcome

/-! ### Invalid lines -/

/-- Later numbers make no other lines invalid. -/
theorem invalidFrom_add (first count : Nat) (lines : List Text) :
    invalidFrom (first + count) lines =
      (invalidFrom first lines).map fun (n, text) ↦ (n + count, text) := by
  induction lines generalizing first with
  | nil => rfl
  | cons line rest ih =>
    have ih := ih (first + 1)
    rw [Nat.add_right_comm] at ih
    simp only [invalidFrom, ih]
    split <;> rfl

/-- The numbers go on with the lines that follow. -/
theorem invalidFrom_append (first : Nat) (lines more : List Text) :
    invalidFrom first (lines ++ more) =
      invalidFrom first lines ++
        (invalidFrom first more).map fun (n, text) ↦ (n + lines.length, text) := by
  rw [← invalidFrom_add]
  induction lines generalizing first with
  | nil => rfl
  | cons line rest ih =>
    have hlength : first + (line :: rest).length = first + 1 + rest.length := by
      rw [List.length_cons]
      omega
    rw [List.cons_append, invalidFrom, invalidFrom, ih, hlength]
    split <;> rfl

/-- What is recorded under a number depends on the line with that number. -/
theorem get?_invalidLines_congr {lines lines' : List Text} {i j : Nat}
    (h : lines[i]? = lines'[j]?) :
    (invalidLines lines).get? (i + 1) = (invalidLines lines').get? (j + 1) := by
  ext text
  simp [get?_invalidLines, h]

/-- Each line gives its option by itself. -/
theorem optionsFor_append (version : Nat) (lines more : List Text) :
    optionsFor version (lines ++ more) = optionsFor version lines ++ optionsFor version more :=
  List.filterMap_append

/-- At two seams, the lines of the content between them stand between the others. -/
theorem ofBytes_append_append (version : Nat) {before part after : Bytes}
    (hbefore : IsSeam before (part ++ after)) (hafter : IsSeam part after) :
    ofBytes version (before ++ (part ++ after)) =
      ofLines version (contentLines before ++ (contentLines part ++ contentLines after)) := by
  rw [ofBytes_eq, contentLines_append_of_isSeam hbefore, contentLines_append_of_isSeam hafter]

/-- Where two contents meet at a seam, what they give together is what the one gives and then what
the other gives: lines, options, and invalid lines, with the numbers of the second content shifted
by the number of lines of the first. A part of a content between two seams may be put in the place
of another, or be taken out or in: the options and the invalid lines before and after it stay, under
numbers that are shifted by the lines that it has more or less. -/
theorem ofSource?_append (version : Nat) :
    (∀ before after : Bytes, IsSeam before after → ∀ deliveries deliveries' joint,
      Delivers deliveries before → Delivers deliveries' after → Delivers joint (before ++ after) →
      ∃ lines lines' outcome outcome' whole,
        LineSource.lines? ⟨deliveries, false⟩ = some lines ∧
        LineSource.lines? ⟨deliveries', false⟩ = some lines' ∧
        LineSource.lines? ⟨joint, false⟩ = some (lines ++ lines') ∧
        ofSource? version ⟨deliveries, false⟩ = some outcome ∧
        ofSource? version ⟨deliveries', false⟩ = some outcome' ∧
        ofSource? version ⟨joint, false⟩ = some whole ∧
        whole.options = outcome.options ++ outcome'.options ∧
        whole.invalid.toList = outcome.invalid.toList ++
          outcome'.invalid.toList.map fun (n, text) ↦ (n + lines.length, text)) ∧
    ∀ before part part' after : Bytes,
      IsSeam before (part ++ after) → IsSeam part after →
      IsSeam before (part' ++ after) → IsSeam part' after →
      (ofBytes version (before ++ (part ++ after))).options =
        (ofBytes version before).options ++
          ((ofBytes version part).options ++ (ofBytes version after).options) ∧
      (ofBytes version (before ++ (part' ++ after))).options =
        (ofBytes version before).options ++
          ((ofBytes version part').options ++ (ofBytes version after).options) ∧
      (∀ i < (contentLines before).length,
        (ofBytes version (before ++ (part ++ after))).invalid.get? (i + 1) =
          (ofBytes version (before ++ (part' ++ after))).invalid.get? (i + 1)) ∧
      ∀ i, (ofBytes version (before ++ (part ++ after))).invalid.get?
          ((contentLines before).length + (contentLines part).length + i + 1) =
        (ofBytes version (before ++ (part' ++ after))).invalid.get?
          ((contentLines before).length + (contentLines part').length + i + 1) := by
  constructor
  · intro before after hseam deliveries deliveries' joint h h' hjoint
    have hlines : LineSource.lines? ⟨joint, false⟩ =
        some (contentLines before ++ contentLines after) := by
      rw [hjoint.lines?, contentLines_append_of_isSeam hseam]
    refine ⟨contentLines before, contentLines after, ofLines version (contentLines before),
      ofLines version (contentLines after),
      ofLines version (contentLines before ++ contentLines after),
      h.lines?, h'.lines?, hlines, ?_, ?_, ?_, ?_, ?_⟩
    · rw [ofSource?, h.lines?, Option.map_some]
    · rw [ofSource?, h'.lines?, Option.map_some]
    · rw [ofSource?, hlines, Option.map_some]
    · exact optionsFor_append version _ _
    · exact invalidFrom_append 1 _ _
  · intro before part part' after hbefore hafter hbefore' hafter'
    rw [ofBytes_append_append version hbefore hafter,
      ofBytes_append_append version hbefore' hafter']
    simp only [ofBytes_eq]
    have hoptions (lines : List Text) :
        optionsFor version (contentLines before ++ (lines ++ contentLines after)) =
          optionsFor version (contentLines before) ++
            (optionsFor version lines ++ optionsFor version (contentLines after)) := by
      rw [optionsFor_append, optionsFor_append]
    have hlater (lines : List Text) (i : Nat) :
        (contentLines before ++ (lines ++ contentLines after))[
          (contentLines before).length + lines.length + i]? = (contentLines after)[i]? := by
      rw [← List.append_assoc, ← List.length_append,
        List.getElem?_append_right (Nat.le_add_right ..), Nat.add_sub_cancel_left]
    refine ⟨hoptions _, hoptions _, fun i hi ↦ ?_, fun i ↦ ?_⟩
    · refine get?_invalidLines_congr ?_
      rw [List.getElem?_append_left hi, List.getElem?_append_left hi]
    · refine get?_invalidLines_congr ?_
      rw [hlater, hlater]

/-- An option and a line without a reading that ends in a carriage return, and after them an
ill-formed line and another option; the first line of the whole is put out of it. -/
theorem ofSource?_append_carriageReturn :
    IsSeam [45, 97, 10, 120, 13] [0xFF, 10, 45, 98] ∧
      (∃ lines lines' outcome outcome' whole,
        LineSource.lines? ⟨[.chunk [45, 97, 10, 120, 13]], false⟩ = some lines ∧
        LineSource.lines? ⟨[.chunk [0xFF, 10, 45, 98]], false⟩ = some lines' ∧
        LineSource.lines? ⟨[.chunk [45, 97, 10, 120, 13, 0xFF, 10, 45, 98]], false⟩ =
          some (lines ++ lines') ∧
        ofSource? 11 ⟨[.chunk [45, 97, 10, 120, 13]], false⟩ = some outcome ∧
        ofSource? 11 ⟨[.chunk [0xFF, 10, 45, 98]], false⟩ = some outcome' ∧
        ofSource? 11 ⟨[.chunk [45, 97, 10, 120, 13, 0xFF, 10, 45, 98]], false⟩ = some whole ∧
        whole.options = outcome.options ++ outcome'.options ∧
        whole.invalid.toList = outcome.invalid.toList ++
          outcome'.invalid.toList.map fun (n, text) ↦ (n + lines.length, text)) ∧
      IsSeam [] ([45, 97, 10] ++ [120, 13]) ∧ IsSeam [45, 97, 10] [120, 13] ∧
      IsSeam [] ([] ++ [120, 13]) ∧ IsSeam [] [120, 13] ∧
      (ofBytes 11 [45, 97, 10, 120, 13]).invalid.get? 2 =
        (ofBytes 11 [120, 13]).invalid.get? 1 := by
  have hseam : IsSeam [45, 97, 10, 120, 13] [0xFF, 10, 45, 98] :=
    .inr (.inr ⟨by decide, by decide⟩)
  have hline : IsSeam [45, 97, 10] [120, 13] := .inr (.inl (by decide))
  have hnone (after : Bytes) : IsSeam [] after := .inl rfl
  obtain ⟨hjoin, hedit⟩ := ofSource?_append 11
  obtain ⟨-, -, -, hlater⟩ :=
    hedit [] [45, 97, 10] [] [120, 13] (hnone _) hline (hnone _) (hnone _)
  exact ⟨hseam, hjoin _ _ hseam _ _ _ (.chunk (by decide) .nil) (.chunk (by decide) .nil)
    (.chunk (by decide) .nil), hnone _, hline, hnone _, hnone _, hlater 0⟩

end ParseOutcome

end LaunchOptions

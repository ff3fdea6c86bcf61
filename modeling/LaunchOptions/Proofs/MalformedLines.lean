import LaunchOptions.Proofs.LineGrammar
import LaunchOptions.Proofs.MaximalStretches
import LaunchOptions.Proofs.ParseOutcome

/-!
# Lines that are not well formed

The bytes of a line may not be those of a text. If it is not a comment, then such a line is recorded
as invalid, with one exception: an option begins before the first replaced character. Then the line
is read, and its option has the replaced characters.
-/

namespace LaunchOptions

open Utf8 (decodeLossy encode replacement scan)
open OptionLine (classify IsOptionText IsGated)

/-- The byte that a comment begins with. -/
def numberSign : UInt8 := 35

/-- Bytes that are those of no text. -/
def Malformed (bytes : Bytes) : Prop := ∀ t, encode t ≠ bytes

/-- A line that is read as an option, with or without a gate, with a replaced character in it. -/
def KeepsReplacement (line : Text) : Prop :=
  ∃ before option, line = before ++ option ∧ replacement ∉ before ∧ replacement ∈ option ∧
    option.head? = some '-' ∧
    ((before = [] ∧ classify line = .unconditional option) ∨
      (before.getLast? = some ':' ∧ ∃ range, classify line = .conditional range option))

/-- A replaced character comes before every place of a line where an option could begin. -/
def ReplacedBeforeOption (line : Text) : Prop :=
  ∀ before after, line = before ++ '-' :: after → before = [] ∨ before.getLast? = some ':' →
    replacement ∈ before

/-! ### The text of a malformed line -/

/-- A malformed line has a replaced character. -/
theorem replacement_mem_of_malformed {bytes : Bytes} (h : Malformed bytes) :
    replacement ∈ decodeLossy bytes := by
  by_contra hmem
  have hnone : none ∉ scan bytes := fun hnone ↦ hmem (List.mem_map.mpr ⟨none, hnone, rfl⟩)
  obtain ⟨t, ht⟩ := Utf8.exists_encode_eq hnone
  exact h t ht

/-- The bytes of a text are known by what they decode to. -/
theorem malformed_iff {bytes : Bytes} : Malformed bytes ↔ encode (decodeLossy bytes) ≠ bytes := by
  refine ⟨fun h ↦ h _, fun hne t ht ↦ hne ?_⟩
  rw [← ht, Utf8.decodeLossy_encode]

instance (bytes : Bytes) : Decidable (Malformed bytes) :=
  decidable_of_iff _ malformed_iff.symm

/-- A line is a comment exactly if its first byte says so. -/
theorem classify_decodeLossy_eq_comment_iff {bytes : Bytes} :
    classify (decodeLossy bytes) = .comment ↔ bytes.head? = some numberSign := by
  rw [OptionLine.classify_eq_comment_iff]
  constructor
  · rintro ⟨rest, hrest⟩
    have hhead : (decodeLossy bytes).head? = some '#' := by rw [hrest, List.head?_cons]
    obtain ⟨after, rfl⟩ := Utf8.encodeChar_isPrefix hhead (by decide)
    rfl
  · intro hhead
    obtain ⟨rest, rfl⟩ := List.head?_eq_some_iff.mp hhead
    exact ⟨decodeLossy rest, Utf8.decodeLossy_append_ascii (b := numberSign) (by decide) [] rest⟩

/-- A gate has none but digits and a hyphen. -/
theorem Gate.WellFormed.not_mem {gate : Gate} (h : gate.WellFormed) {c : Char}
    (hdigit : Text.isDigit c = false) (hhyphen : c ≠ '-') : c ∉ gate.text := by
  have hrun {digits : Text} (hdigits : Text.IsDigits digits) : c ∉ digits := by
    intro hmem
    rw [hdigits.2 c hmem] at hdigit
    cases hdigit
  rw [Gate.text, List.mem_append, not_or]
  refine ⟨hrun h.1, ?_⟩
  cases hending : gate.ending with
  | nothing => exact List.not_mem_nil
  | hyphen => simpa [GateEnd.text] using hhyphen
  | bound upper => simpa [GateEnd.text, hhyphen] using hrun (h.2 upper hending)

/-- A line with a replaced character is invalid, or a comment, or it keeps the character in its
option. -/
theorem classify_of_replacement_mem {line : Text} (h : replacement ∈ line) :
    classify line = .comment ∨ classify line = .invalid ∨ KeepsReplacement line := by
  cases hclass : classify line with
  | comment => exact .inl rfl
  | blank =>
    have hblank := OptionLine.classify_eq_blank_iff.mp hclass replacement h
    exact absurd hblank (by decide)
  | invalid => exact .inr (.inl rfl)
  | unconditional option =>
    obtain ⟨rfl, hoption⟩ := OptionLine.classify_eq_unconditional_iff.mp hclass
    exact .inr (.inr ⟨[], option, rfl, List.not_mem_nil, h, hoption.1, .inl ⟨rfl, hclass⟩⟩)
  | conditional range option =>
    obtain ⟨gate, hgate, hoption, rfl⟩ := OptionLine.classify_eq_conditional_iff.mp hclass
    have hbefore : replacement ∉ gate.text ++ [':'] := by
      have hgate := hgate.wellFormed.not_mem (c := replacement) (by decide) (by decide)
      simpa [hgate] using (by decide : replacement ≠ ':')
    rw [List.append_cons] at h ⊢
    refine .inr (.inr ⟨gate.text ++ [':'], option, rfl, hbefore, ?_, hoption.1, .inr ⟨by simp, ?_⟩⟩)
    · exact (List.mem_append.mp h).resolve_left hbefore
    · exact ⟨range, by rw [← List.append_cons, hclass]⟩

/-- A line that keeps a replaced character in its option has a reading. -/
theorem KeepsReplacement.classify_ne_invalid {line : Text} (h : KeepsReplacement line) :
    classify line ≠ .invalid := by
  obtain ⟨before, option, -, -, -, -, ⟨-, hclass⟩ | ⟨-, range, hclass⟩⟩ := h
  · simp [hclass]
  · simp [hclass]

/-- A line keeps no replaced character in its option if one comes before. -/
theorem ReplacedBeforeOption.not_keepsReplacement {line : Text} (h : ReplacedBeforeOption line) :
    ¬ KeepsReplacement line := by
  rintro ⟨before, option, rfl, hbefore, -, hhead, hclass⟩
  obtain ⟨after, rfl⟩ := List.head?_eq_some_iff.mp hhead
  exact hbefore (h before after rfl (hclass.imp And.left And.left))

/-- A malformed line is invalid unless it is a comment or keeps a replaced character in its
option. -/
theorem classify_of_malformed {piece : Bytes} (h : Malformed piece)
    (hcomment : piece.head? ≠ some numberSign) (hkeeps : ¬ KeepsReplacement (decodeLossy piece)) :
    classify (decodeLossy piece) = .invalid := by
  rcases classify_of_replacement_mem (replacement_mem_of_malformed h) with hc | hc | hc
  · exact absurd (classify_decodeLossy_eq_comment_iff.mp hc) hcomment
  · exact hc
  · exact absurd hc hkeeps

/-! ### The outcome -/

/-- A malformed line that is not a comment is recorded exactly if it does not keep a replaced
character in an option. -/
theorem get?_invalid_of_malformed (version : Nat) {content piece : Bytes} {i : Nat}
    (hpiece : (byteLines content)[i]? = some piece) (h : Malformed piece)
    (hcomment : piece.head? ≠ some numberSign) :
    (ParseOutcome.ofBytes version content).invalid.get? (i + 1) = some (decodeLossy piece) ↔
      ¬ KeepsReplacement (decodeLossy piece) := by
  have hline : (contentLines content)[i]? = some (decodeLossy piece) := by
    rw [contentLines, List.getElem?_map, hpiece, Option.map_some]
  rw [ParseOutcome.ofBytes_eq]
  constructor
  · intro hget hkeeps
    obtain ⟨-, -, -, hinvalid⟩ := ParseOutcome.get?_invalidLines.mp hget
    exact hkeeps.classify_ne_invalid hinvalid
  · intro hkeeps
    exact ParseOutcome.get?_invalidLines.mpr
      ⟨i, rfl, hline, classify_of_malformed h hcomment hkeeps⟩

/-- A malformed line that is not a comment is recorded under its number, unless it keeps a replaced
character in an option. If in each such line a replaced character comes before every place where an
option could begin, then each one is recorded, and options come from lines that are well formed. -/
theorem ofBytes_malformed (version : Nat) (content : Bytes) :
    (∀ i piece, (byteLines content)[i]? = some piece → Malformed piece →
      piece.head? ≠ some numberSign →
      ((ParseOutcome.ofBytes version content).invalid.get? (i + 1) = some (decodeLossy piece) ↔
        ¬ KeepsReplacement (decodeLossy piece))) ∧
    ((∀ piece ∈ byteLines content, Malformed piece → piece.head? ≠ some numberSign →
        ReplacedBeforeOption (decodeLossy piece)) →
      (∀ i piece, (byteLines content)[i]? = some piece → Malformed piece →
        piece.head? ≠ some numberSign →
        (ParseOutcome.ofBytes version content).invalid.get? (i + 1) = some (decodeLossy piece)) ∧
      ∀ option ∈ (ParseOutcome.ofBytes version content).options, ∃ t,
        encode t ∈ byteLines content ∧ (classify t).optionFor version = some option) := by
  refine ⟨fun i piece ↦ get?_invalid_of_malformed version, fun hbefore ↦ ⟨?_, ?_⟩⟩
  · intro i piece hpiece h hcomment
    have hline := hbefore piece (List.mem_of_getElem? hpiece) h hcomment
    exact (get?_invalid_of_malformed version hpiece h hcomment).mpr hline.not_keepsReplacement
  · intro option hoption
    rw [ParseOutcome.ofBytes_eq] at hoption
    obtain ⟨line, hline, hgives⟩ := List.mem_filterMap.mp hoption
    rw [contentLines] at hline
    obtain ⟨piece, hpiece, rfl⟩ := List.mem_map.mp hline
    by_cases h : Malformed piece
    · -- A malformed line is a comment or invalid, and neither gives an option.
      by_cases hcomment : piece.head? = some numberSign
      · rw [classify_decodeLossy_eq_comment_iff.mpr hcomment] at hgives
        cases hgives
      · have hkeeps := (hbefore piece hpiece h hcomment).not_keepsReplacement
        rw [classify_of_malformed h hcomment hkeeps] at hgives
        cases hgives
    · obtain ⟨t, rfl⟩ : ∃ t, encode t = piece := by simpa [Malformed] using h
      exact ⟨t, hpiece, by rwa [Utf8.decodeLossy_encode] at hgives⟩

/-- A stray byte in front of an option, and a line with an option after it. -/
theorem ofBytes_malformed_strayByte :
    (byteLines [0xFF, 45, 97, 10, 45, 98])[0]? = some [0xFF, 45, 97] ∧
      Malformed [0xFF, 45, 97] ∧
      ReplacedBeforeOption (decodeLossy [0xFF, 45, 97]) ∧
      (ParseOutcome.ofBytes 11 [0xFF, 45, 97, 10, 45, 98]).invalid.get? 1 =
        some (decodeLossy [0xFF, 45, 97]) ∧
      ∀ option ∈ (ParseOutcome.ofBytes 11 [0xFF, 45, 97, 10, 45, 98]).options, ∃ t,
        encode t ∈ byteLines [0xFF, 45, 97, 10, 45, 98] ∧
          (classify t).optionFor 11 = some option := by
  have hpiece : (byteLines [0xFF, 45, 97, 10, 45, 98])[0]? = some [0xFF, 45, 97] := by decide
  have hbad : Malformed [0xFF, 45, 97] := by decide
  have hfirst : ReplacedBeforeOption (decodeLossy [0xFF, 45, 97]) := by
    have hdecode : decodeLossy [0xFF, 45, 97] = [replacement, '-', 'a'] := by decide
    rw [hdecode]
    intro before after hline _
    cases before with
    | nil => exact absurd (List.cons.inj hline).1 (by decide)
    | cons c rest =>
      obtain ⟨rfl, -⟩ := List.cons.inj hline
      exact List.mem_cons_self
  have hlines : byteLines [0xFF, 45, 97, 10, 45, 98] = [[0xFF, 45, 97], [45, 98]] := by decide
  obtain ⟨-, hall⟩ := ofBytes_malformed 11 [0xFF, 45, 97, 10, 45, 98]
  obtain ⟨hrecorded, hoptions⟩ := hall fun piece hmem h _ ↦ by
    rw [hlines] at hmem
    rcases List.mem_pair.mp hmem with rfl | rfl
    · exact hfirst
    · exact absurd h (by decide)
  exact ⟨hpiece, hbad, hfirst, hrecorded 0 _ hpiece hbad (by decide), hoptions⟩

/-- A stray byte at the end of an option: the line is not recorded, and the option has the replaced
character. -/
theorem not_forall_malformed_recorded :
    ¬ ∀ (version : Nat) (content : Bytes) (i : Nat) (piece : Bytes),
      (byteLines content)[i]? = some piece → Malformed piece → piece.head? ≠ some numberSign →
      (ParseOutcome.ofBytes version content).invalid.get? (i + 1) = some (decodeLossy piece) := by
  intro h
  have hrecorded := h 11 [45, 97, 0xFF] 0 [45, 97, 0xFF] (by decide) (by decide) (by decide)
  rw [ParseOutcome.ofBytes_eq] at hrecorded
  exact absurd hrecorded (by decide)

end LaunchOptions

import LaunchOptions.Proofs.RuntimeVersion
import Mathlib.Data.List.DropRight

/-!
# Version texts

A version text has something without a digit in front, then the mark of the old numbering if it is
there, the digits of the major version, and something that no digit begins. White space around the
text does not count. The major version is the value of those digits; a text that has no such parts
has none, nor has a text with a value that is too large.
-/

namespace LaunchOptions

open Text (IsDigits Numeral isDigit isWhiteSpace)

namespace Text

/-! ### Trimming -/

/-- A text is what is left of another one without the white space around it. -/
def IsTrimmed (whole t : Text) : Prop :=
  ∃ before after, whole = before ++ t ++ after ∧ (∀ c ∈ before, isWhiteSpace c) ∧
    (∀ c ∈ after, isWhiteSpace c) ∧ (∀ c ∈ t.head?, isWhiteSpace c = false) ∧
    ∀ c ∈ t.getLast?, isWhiteSpace c = false

private theorem trim_eq_rdropWhile (t : Text) :
    t.trim = (t.dropWhile isWhiteSpace).rdropWhile isWhiteSpace := rfl

/-- Trimming leaves out the white space around a text and nothing else. -/
theorem isTrimmed_trim (t : Text) : IsTrimmed t t.trim := by
  have hstart : t.trim <+: t.dropWhile isWhiteSpace := List.rdropWhile_prefix isWhiteSpace _
  refine ⟨t.takeWhile isWhiteSpace, (t.dropWhile isWhiteSpace).rtakeWhile isWhiteSpace, ?_,
    fun c ↦ List.mem_takeWhile_imp, fun c ↦ List.mem_rtakeWhile_imp, ?_, ?_⟩
  · rw [trim_eq_rdropWhile, List.append_assoc, List.rdropWhile_append_rtakeWhile,
      List.takeWhile_append_dropWhile]
  · intro c hc
    obtain ⟨rest, hrest⟩ := List.head?_eq_some_iff.mp hc
    obtain ⟨after, hafter⟩ := hstart
    have hhead := List.head?_dropWhile_not isWhiteSpace t
    rw [← hafter, hrest] at hhead
    exact hhead
  · intro c hc
    have hne : t.trim ≠ [] := by
      rintro hnil
      rw [hnil] at hc
      cases hc
    have hlast : ¬ isWhiteSpace (t.trim.getLast hne) := List.rdropWhile_last_not isWhiteSpace _ hne
    rw [List.getLast?_eq_some_getLast hne] at hc
    rw [← Option.some.inj hc]
    simpa using hlast

/-- A run ends where something else begins. -/
private theorem dropWhile_append_of_head? {p : Char → Bool} {rest : Text}
    (h : ∀ c ∈ rest.head?, p c = false) (before : Text) :
    (before ++ rest).dropWhile p = before.dropWhile p ++ rest := by
  rw [List.dropWhile_append]
  split
  · next hnil =>
    rw [List.isEmpty_iff.mp hnil, List.nil_append]
    cases rest with
    | nil => rfl
    | cons c more => rw [List.dropWhile_cons_of_neg (by simp [h c rfl])]
  · rfl

/-- White space is trimmed from what stands around a text that neither begins nor ends with it. -/
theorem trim_append {middle : Text} (hne : middle ≠ [])
    (hhead : ∀ c ∈ middle.head?, isWhiteSpace c = false)
    (hlast : ∀ c ∈ middle.getLast?, isWhiteSpace c = false) (before after : Text) :
    (before ++ (middle ++ after)).trim =
      before.dropWhile isWhiteSpace ++ (middle ++ after.rdropWhile isWhiteSpace) := by
  have hfront : ∀ c ∈ (middle ++ after).head?, isWhiteSpace c = false := by
    rwa [List.head?_append_of_ne_nil _ hne]
  have hback : ∀ c ∈ (before.dropWhile isWhiteSpace ++ middle).reverse.head?,
      isWhiteSpace c = false := by
    rwa [List.head?_reverse, List.getLast?_append_of_ne_nil _ hne]
  rw [trim_eq_rdropWhile, dropWhile_append_of_head? hfront, ← List.append_assoc,
    List.rdropWhile, List.reverse_append, dropWhile_append_of_head? hback, List.reverse_append,
    List.reverse_reverse, List.append_assoc, List.rdropWhile]

/-! ### Digits within a text -/

/-- No character of a text is a digit. -/
def IsDigitFree (t : Text) : Prop := ∀ c ∈ t, isDigit c = false

/-- A text does not begin with a digit. -/
def NoDigitHead (t : Text) : Prop := ∀ c ∈ t.head?, isDigit c = false

instance (t : Text) : Decidable (IsDigitFree t) :=
  decidable_of_iff (t.all fun c ↦ !isDigit c) (by simp [IsDigitFree])

instance (t : Text) : Decidable (NoDigitHead t) :=
  decidable_of_iff (t.head?.all fun c ↦ !isDigit c) (by cases t <;> simp [NoDigitHead])

private theorem noDigitHead_dropWhile (t : Text) : NoDigitHead (t.dropWhile isDigit) := by
  intro c hc
  have hhead := List.head?_dropWhile_not isDigit t
  rwa [hc] at hhead

/-- Digits are a maximal run if no digit comes after them. -/
theorem takeWhile_isDigit_append {digits after : Text} (hdigits : ∀ c ∈ digits, isDigit c)
    (hafter : NoDigitHead after) : (digits ++ after).takeWhile isDigit = digits := by
  rw [List.takeWhile_append_of_pos hdigits]
  cases after with
  | nil => rw [List.takeWhile_nil, List.append_nil]
  | cons c rest => rw [List.takeWhile_cons_of_neg (by simp [hafter c rfl]), List.append_nil]

/-- What comes in front of the first digit is dropped. -/
theorem dropWhile_not_isDigit_append {before rest : Text} (h : IsDigitFree before) :
    (before ++ rest).dropWhile (fun c ↦ !isDigit c) = rest.dropWhile (fun c ↦ !isDigit c) :=
  List.dropWhile_append_of_pos fun c hc ↦ by simp [h c hc]

end Text

namespace RuntimeVersion

open Text (IsTrimmed IsDigitFree NoDigitHead)

/-- The mark of the old numbering. -/
def legacyMark : Text := ['1', '.']

/-- The parts of a version text. -/
structure Parts where
  before : Text
  /-- The mark of the old numbering, or nothing. -/
  mark : Text
  /-- The digits of the major version. -/
  digits : Text
  after : Text

namespace Parts

def text (parts : Parts) : Text := parts.before ++ (parts.mark ++ (parts.digits ++ parts.after))

/-- The digits are the first ones of the text, or the first ones after the mark if that begins with
the first digit. -/
structure WellFormed (parts : Parts) : Prop where
  before : IsDigitFree parts.before
  mark : parts.mark = legacyMark ∨
    parts.mark = [] ∧ ¬ (parts.digits = ['1'] ∧ parts.after.head? = some '.')
  digits : IsDigits parts.digits
  after : NoDigitHead parts.after

end Parts

/-- Without a mark in front, digits are kept. -/
theorem dropLegacyMark_append {digits after : Text} (hdigits : IsDigits digits)
    (h : ¬ (digits = ['1'] ∧ after.head? = some '.')) :
    dropLegacyMark (digits ++ after) = digits ++ after := by
  unfold dropLegacyMark
  split
  · next rest heq =>
    obtain ⟨d, more, rfl⟩ := List.exists_cons_of_ne_nil hdigits.1
    obtain ⟨rfl, hmore⟩ := List.cons.inj heq
    cases more with
    | nil =>
      have hafter : after = '.' :: rest := hmore
      exact absurd ⟨rfl, by rw [hafter, List.head?_cons]⟩ h
    | cons e rest' =>
      obtain ⟨rfl, -⟩ := List.cons.inj hmore
      exact absurd (hdigits.2 '.' (by simp)) (by decide)
  · rfl

/-- The digits of the major version stand where the parts say. -/
theorem Parts.WellFormed.majorDigits_text {parts : Parts} (h : parts.WellFormed) :
    majorDigits parts.text = parts.digits := by
  have hrun := Text.takeWhile_isDigit_append h.digits.2 h.after
  rw [majorDigits, Parts.text, Text.dropWhile_not_isDigit_append h.before]
  rcases h.mark with hmark | ⟨hmark, hlegacy⟩
  · rw [hmark]
    exact hrun
  · obtain ⟨d, more, hdigits⟩ := List.exists_cons_of_ne_nil h.digits.1
    have hd : isDigit d := h.digits.2 d (by simp [hdigits])
    have hfirst : (parts.digits ++ parts.after).dropWhile (fun c ↦ !isDigit c) =
        parts.digits ++ parts.after := by
      rw [hdigits, List.cons_append, List.dropWhile_cons_of_neg (by simp [hd])]
    rw [hmark, List.nil_append, hfirst, dropLegacyMark_append h.digits hlegacy, hrun]

/-- Without a digit there are no digits of a version. -/
theorem majorDigits_of_isDigitFree {t : Text} (h : IsDigitFree t) : majorDigits t = [] := by
  have hdrop : (t ++ []).dropWhile (fun c ↦ !isDigit c) = [] :=
    Text.dropWhile_not_isDigit_append h
  rw [List.append_nil] at hdrop
  rw [majorDigits, hdrop]
  rfl

/-- A mark without digits after it names no version. -/
theorem majorDigits_of_legacyMark {before after : Text} (hbefore : IsDigitFree before)
    (hafter : NoDigitHead after) : majorDigits (before ++ (legacyMark ++ after)) = [] := by
  have hrun : ([] ++ after).takeWhile isDigit = [] :=
    Text.takeWhile_isDigit_append (by simp) hafter
  rw [majorDigits, Text.dropWhile_not_isDigit_append hbefore]
  exact hrun

/-- A text has well-formed parts, or it has no digits, or its first digit is that of a mark without
digits after it. -/
theorem exists_parts (t : Text) :
    (∃ parts : Parts, parts.text = t ∧ parts.WellFormed) ∨ IsDigitFree t ∨
      ∃ before after, t = before ++ (legacyMark ++ after) ∧ IsDigitFree before ∧
        NoDigitHead after := by
  have hbefore : IsDigitFree (t.takeWhile fun c ↦ !isDigit c) := by
    intro c hc
    simpa using List.mem_takeWhile_imp hc
  have htext : (t.takeWhile fun c ↦ !isDigit c) ++ (t.dropWhile fun c ↦ !isDigit c) = t :=
    List.takeWhile_append_dropWhile
  have hdigits {u : Text} (hne : u.takeWhile isDigit ≠ []) : IsDigits (u.takeWhile isDigit) :=
    ⟨hne, fun c hc ↦ List.mem_takeWhile_imp hc⟩
  have hhead := List.head?_dropWhile_not (fun c ↦ !isDigit c) t
  generalize (t.takeWhile fun c ↦ !isDigit c) = before at hbefore htext
  generalize (t.dropWhile fun c ↦ !isDigit c) = rest at htext hhead
  subst htext
  by_cases hlegacy : legacyMark <+: rest
  · obtain ⟨tail, rfl⟩ := hlegacy
    by_cases hne : tail.takeWhile isDigit = []
    · refine .inr (.inr ⟨before, tail, rfl, hbefore, ?_⟩)
      have hdrop : tail.dropWhile isDigit = tail := by
        rw [← List.nil_append (tail.dropWhile isDigit), ← hne, List.takeWhile_append_dropWhile]
      exact hdrop ▸ Text.noDigitHead_dropWhile tail
    · refine .inl ⟨⟨before, legacyMark, tail.takeWhile isDigit, tail.dropWhile isDigit⟩, ?_,
        hbefore, .inl rfl, hdigits hne, Text.noDigitHead_dropWhile tail⟩
      rw [Parts.text, List.takeWhile_append_dropWhile]
  · cases rest with
    | nil => exact .inr (.inl (by rwa [List.append_nil]))
    | cons c more =>
      have hc : isDigit c := by simpa using hhead
      have hne : (c :: more).takeWhile isDigit ≠ [] := by
        rw [List.takeWhile_cons_of_pos hc]
        exact List.cons_ne_nil _ _
      refine .inl ⟨⟨before, [], (c :: more).takeWhile isDigit, (c :: more).dropWhile isDigit⟩, ?_,
        hbefore, .inr ⟨rfl, ?_⟩, hdigits hne, Text.noDigitHead_dropWhile _⟩
      · rw [Parts.text, List.takeWhile_append_dropWhile, List.nil_append]
      · rintro ⟨(hone : (c :: more).takeWhile isDigit = ['1']),
          (hdot : ((c :: more).dropWhile isDigit).head? = some '.')⟩
        obtain ⟨after, hafter⟩ := List.head?_eq_some_iff.mp hdot
        have hsplit : (c :: more).takeWhile isDigit ++ (c :: more).dropWhile isDigit = c :: more :=
          List.takeWhile_append_dropWhile
        rw [hone, hafter] at hsplit
        exact hlegacy ⟨after, hsplit⟩

/-! ### White space around the parts -/

namespace Parts

/-- The parts without the white space around them. -/
def trimmed (parts : Parts) : Parts :=
  { parts with
    before := parts.before.dropWhile isWhiteSpace
    after := parts.after.rdropWhile isWhiteSpace }

variable {parts : Parts}

/-- Well-formed parts stay so without the white space around them. -/
theorem WellFormed.trimmed (h : parts.WellFormed) : parts.trimmed.WellFormed := by
  have hbefore : parts.trimmed.before <:+ parts.before := List.dropWhile_suffix isWhiteSpace
  have hafter : parts.trimmed.after <+: parts.after := List.rdropWhile_prefix isWhiteSpace _
  have hhead {c : Char} (hc : parts.trimmed.after.head? = some c) : parts.after.head? = some c := by
    obtain ⟨rest, hrest⟩ := hafter
    rw [← hrest, List.head?_append, hc, Option.some_or]
  refine ⟨fun c hc ↦ h.before c (hbefore.subset hc), h.mark.imp_right ?_, h.digits,
    fun c hc ↦ h.after c (hhead hc)⟩
  rintro ⟨hmark, hlegacy⟩
  exact ⟨hmark, fun hone ↦ hlegacy ⟨hone.1, hhead hone.2⟩⟩

/-- The mark and the digits neither begin nor end with white space, so it is trimmed from what
stands around them. -/
theorem WellFormed.trim_text (h : parts.WellFormed) : parts.text.trim = parts.trimmed.text := by
  have hne : parts.mark ++ parts.digits ≠ [] := List.append_ne_nil_of_right_ne_nil _ h.digits.1
  have hdigit {c : Char} (hc : c ∈ parts.digits) : isWhiteSpace c = false :=
    Text.not_isWhiteSpace_of_isDigit (h.digits.2 c hc)
  have hhead : ∀ c ∈ (parts.mark ++ parts.digits).head?, isWhiteSpace c = false := by
    rcases h.mark with hmark | ⟨hmark, -⟩
    · rw [hmark]
      rintro _ ⟨⟩
      decide
    · rw [hmark, List.nil_append]
      exact fun c hc ↦ hdigit (List.mem_of_mem_head? hc)
  have hlast : ∀ c ∈ (parts.mark ++ parts.digits).getLast?, isWhiteSpace c = false := by
    rw [List.getLast?_append_of_ne_nil _ h.digits.1]
    exact fun c hc ↦ hdigit (List.mem_of_getLast? hc)
  have htrim := Text.trim_append hne hhead hlast parts.before parts.after
  rwa [List.append_assoc, List.append_assoc] at htrim

end Parts

/-! ### The major version -/

section Trimmed

variable {version : Text}

private theorem major_of_trim_ne_nil (h : version.trim ≠ []) :
    major version =
      if majorDigits version.trim = [] ∨ maxMajor < Text.decimalValue (majorDigits version.trim)
      then .error (.unrecognisedVersion version.trim)
      else .ok (Text.decimalValue (majorDigits version.trim)) := by
  simp [major, h]

/-- The value of the digits is the major version, if there are some and it is small enough. -/
theorem major_eq_ok_iff {n : Nat} (h : version.trim ≠ []) :
    major version = .ok n ↔ Numeral (majorDigits version.trim) n ∧ n ≤ 4294967295 := by
  have hdigits : IsDigits (majorDigits version.trim) ↔ majorDigits version.trim ≠ [] :=
    and_iff_left fun c hc ↦ List.mem_takeWhile_imp hc
  rw [major_of_trim_ne_nil h, Text.numeral_iff, hdigits]
  split
  · next hnone =>
    constructor
    · rintro ⟨⟩
    · rintro ⟨⟨hne, rfl⟩, hle⟩
      exact absurd hle (Nat.not_le.mpr (hnone.resolve_left hne))
  · next hsome =>
    rw [not_or, Nat.not_lt] at hsome
    rw [Except.ok.injEq]
    constructor
    · rintro rfl
      exact ⟨⟨hsome.1, rfl⟩, hsome.2⟩
    · exact fun hn ↦ hn.1.2

/-- A text without a version is reported as it is trimmed. -/
theorem major_eq_error (h : ∀ n, major version ≠ .ok n) :
    major version = .error (.unrecognisedVersion version.trim) := by
  by_cases hne : version.trim = []
  · exact absurd (by simp [major, hne]) (h fallbackMajor)
  · have hmajor := major_of_trim_ne_nil hne
    split at hmajor
    · exact hmajor
    · exact absurd hmajor (h _)

private theorem major_of_majorDigits_eq_nil (hne : version.trim ≠ [])
    (h : majorDigits version.trim = []) :
    major version = .error (.unrecognisedVersion version.trim) := by
  rw [major_of_trim_ne_nil hne, if_pos (.inl h)]

end Trimmed

/-- The major version of a text is read off its parts. -/
theorem major_eq_ok_iff_exists_parts {version : Text} {n : Nat} (h : version.trim ≠ []) :
    major version = .ok n ↔ ∃ parts : Parts, parts.text = version.trim ∧ parts.WellFormed ∧
      Numeral parts.digits n ∧ n ≤ 4294967295 := by
  rw [major_eq_ok_iff h]
  constructor
  · rintro ⟨hnumeral, hle⟩
    rcases exists_parts version.trim with
      ⟨parts, htext, hparts⟩ | hfree | ⟨before, after, htext, hbefore, hafter⟩
    · rw [← htext, hparts.majorDigits_text] at hnumeral
      exact ⟨parts, htext, hparts, hnumeral, hle⟩
    · exact absurd (majorDigits_of_isDigitFree hfree) hnumeral.isDigits.1
    · rw [htext, majorDigits_of_legacyMark hbefore hafter] at hnumeral
      exact absurd rfl hnumeral.isDigits.1
  · rintro ⟨parts, htext, hparts, hnumeral, hle⟩
    rw [← htext, hparts.majorDigits_text]
    exact ⟨hnumeral, hle⟩

/-- The digits of a text with well-formed parts name its version, with any white space around. -/
theorem Parts.WellFormed.major_text {parts : Parts} {n : Nat} (h : parts.WellFormed)
    (hnumeral : Numeral parts.digits n) (hle : n ≤ 4294967295) : major parts.text = .ok n := by
  have hne : parts.text.trim ≠ [] := by
    rw [h.trim_text]
    intro hnil
    simp only [Parts.text, List.append_eq_nil_iff] at hnil
    exact h.digits.1 hnil.2.2.1
  exact (major_eq_ok_iff_exists_parts hne).mpr
    ⟨parts.trimmed, h.trim_text.symm, h.trimmed, hnumeral, hle⟩

/-- A number after something without a digit is the major version, with the mark of the old
numbering or without it, unless the number could belong to a mark. -/
theorem major_ofNat {n : Nat} {before after : Text} (hle : n ≤ 4294967295)
    (hbefore : IsDigitFree before) (hafter : NoDigitHead after) :
    major (before ++ (legacyMark ++ (Text.ofNat n ++ after))) = .ok n ∧
      (¬ (n = 1 ∧ after.head? = some '.') → major (before ++ (Text.ofNat n ++ after)) = .ok n) := by
  have hnumeral := Text.numeral_ofNat n
  constructor
  · have hparts : Parts.WellFormed ⟨before, legacyMark, Text.ofNat n, after⟩ :=
      ⟨hbefore, .inl rfl, hnumeral.isDigits, hafter⟩
    exact hparts.major_text hnumeral hle
  · intro hmark
    have hone (h : Text.ofNat n = ['1']) : n = 1 :=
      Text.ofNat_injective (h : Text.ofNat n = Text.ofNat 1)
    have hparts : Parts.WellFormed ⟨before, [], Text.ofNat n, after⟩ :=
      ⟨hbefore, .inr ⟨rfl, fun h ↦ hmark ⟨hone h.1, h.2⟩⟩, hnumeral.isDigits, hafter⟩
    exact hparts.major_text hnumeral hle

/-- A number that is too large for a version is reported. -/
theorem major_of_lt {version before mark digits after : Text} {n : Nat}
    (htext : version.trim = before ++ (mark ++ (digits ++ after))) (hbefore : IsDigitFree before)
    (hmark : mark = legacyMark ∨ mark = []) (hnumeral : Numeral digits n)
    (hafter : NoDigitHead after) (hlt : 4294967295 < n) :
    major version = .error (.unrecognisedVersion version.trim) := by
  have hone : ¬ (digits = ['1'] ∧ after.head? = some '.') := by
    rintro ⟨rfl, -⟩
    have hvalue : 1 = n := hnumeral.decimalValue_eq
    omega
  have hparts : Parts.WellFormed ⟨before, mark, digits, after⟩ :=
    ⟨hbefore, hmark.imp_right fun h ↦ ⟨h, hone⟩, hnumeral.isDigits, hafter⟩
  have hdigits : majorDigits version.trim = digits := by
    rw [htext]
    exact hparts.majorDigits_text
  have hne : version.trim ≠ [] := by
    intro hnil
    rw [hnil] at hdigits
    exact hnumeral.isDigits.1 hdigits.symm
  rw [major_of_trim_ne_nil hne, hdigits, hnumeral.decimalValue_eq, if_pos (.inr hlt)]

/-- A number in a version text is its major version, whatever comes before that has no digit and
whatever comes after that begins with none; the mark of the old numbering in front of it is passed
over, and a `1` is a version unless it makes up a mark. Trimmed, a version text is empty and gets
the fallback, or it has such a number, or it is reported: so is a text without a digit, one with a
mark and no digit after it, and one with a number that is too large. A version is its own version
text. -/
theorem major_iff_parts :
    (∀ n ≤ 4294967295, ∀ before after, IsDigitFree before → NoDigitHead after →
      major (before ++ (legacyMark ++ (Text.ofNat n ++ after))) = .ok n ∧
      (¬ (n = 1 ∧ after.head? = some '.') →
        major (before ++ (Text.ofNat n ++ after)) = .ok n)) ∧
    (∀ version, IsTrimmed version version.trim ∧
      (version.trim = [] → major version = .ok 8) ∧
      (version.trim ≠ [] → ∀ n, major version = .ok n ↔
        ∃ parts : Parts, parts.text = version.trim ∧ parts.WellFormed ∧
          Numeral parts.digits n ∧ n ≤ 4294967295) ∧
      ((∀ n, major version ≠ .ok n) →
        major version = .error (.unrecognisedVersion version.trim)) ∧
      (version.trim ≠ [] → IsDigitFree version.trim →
        major version = .error (.unrecognisedVersion version.trim)) ∧
      (∀ before after, version.trim = before ++ (legacyMark ++ after) → IsDigitFree before →
        NoDigitHead after → major version = .error (.unrecognisedVersion version.trim)) ∧
      ∀ before mark digits after n, version.trim = before ++ (mark ++ (digits ++ after)) →
        IsDigitFree before → (mark = legacyMark ∨ mark = []) → Numeral digits n →
        NoDigitHead after → 4294967295 < n →
        major version = .error (.unrecognisedVersion version.trim)) ∧
    ∀ version n, major version = .ok n → major (Text.ofNat n) = .ok n := by
  refine ⟨fun n hle before after ↦ major_ofNat hle, fun version ↦ ?_, fun version n h ↦ ?_⟩
  · refine ⟨Text.isTrimmed_trim version, fun hnil ↦ ?_, fun hne n ↦
      major_eq_ok_iff_exists_parts hne, major_eq_error, fun hne hfree ↦ ?_, ?_,
      fun before mark digits after n ↦ major_of_lt⟩
    · simp [major, hnil, fallbackMajor]
    · exact major_of_majorDigits_eq_nil hne (majorDigits_of_isDigitFree hfree)
    · intro before after htext hbefore hafter
      refine major_of_majorDigits_eq_nil ?_ ?_
      · simp [htext, legacyMark]
      · rw [htext, majorDigits_of_legacyMark hbefore hafter]
  · exact major_of_numeral (Text.numeral_ofNat n) (le_of_major h)

/-- Versions in the old and the new numbering, a `1` before a hyphen, and three texts that are
reported. -/
theorem major_iff_parts_numberings :
    IsDigitFree "jdk-".toList ∧ NoDigitHead "_292".toList ∧
      major ("jdk-".toList ++ (legacyMark ++ (Text.ofNat 8 ++ "_292".toList))) = .ok 8 ∧
      NoDigitHead "-ea ".toList ∧ ¬ (1 = 1 ∧ "-ea ".toList.head? = some '.') ∧
      major ("jdk-".toList ++ (Text.ofNat 1 ++ "-ea ".toList)) = .ok 1 ∧
      IsDigitFree (Text.trim " latest ".toList) ∧
      major " latest ".toList = .error (.unrecognisedVersion "latest".toList) ∧
      major "1.x".toList = .error (.unrecognisedVersion "1.x".toList) ∧
      Numeral "4294967296".toList 4294967296 ∧
      major "1.4294967296".toList = .error (.unrecognisedVersion "1.4294967296".toList) ∧
      major "1.8".toList = .ok 8 ∧ major (Text.ofNat 8) = .ok 8 := by
  obtain ⟨hnumber, htrimmed, hagain⟩ := major_iff_parts
  have hbefore : IsDigitFree "jdk-".toList := by decide
  have hafter : NoDigitHead "_292".toList := by decide
  have hafter' : NoDigitHead "-ea ".toList := by decide
  have hmark : ¬ (1 = 1 ∧ "-ea ".toList.head? = some '.') := by decide
  have hfree : IsDigitFree (Text.trim " latest ".toList) := by decide
  have hnumeral : Numeral "4294967296".toList 4294967296 := Text.numeral_ofNat 4294967296
  have hlegacy : major "1.8".toList = .ok 8 := by rfl
  obtain ⟨-, -, -, -, hdigitFree, -, -⟩ := htrimmed " latest ".toList
  obtain ⟨-, -, -, -, -, hmarkOnly, -⟩ := htrimmed "1.x".toList
  obtain ⟨-, -, -, -, -, -, hlarge⟩ := htrimmed "1.4294967296".toList
  exact ⟨hbefore, hafter, (hnumber 8 (by decide) _ _ hbefore hafter).1, hafter', hmark,
    (hnumber 1 (by decide) _ _ hbefore hafter').2 hmark, hfree, hdigitFree (by decide) hfree,
    hmarkOnly [] ['x'] (by decide) (by decide) (by decide), hnumeral,
    hlarge [] legacyMark _ [] _ (by decide) (by decide) (.inl rfl) hnumeral
      (by decide) (by decide),
    hlegacy, hagain _ _ hlegacy⟩

end RuntimeVersion

end LaunchOptions

import LaunchOptions.OptionLine
import LaunchOptions.Proofs.Numeral
import Mathlib.Data.List.TakeWhile

/-!
# The grammar of a line

The texts that each reading of a line has, said without the reader of lines. A gate is a numeral,
alone, before a hyphen, or before a hyphen and a second numeral. It ends at the first colon, and the
option is all that follows. `classify` finds a reading exactly where the grammar has one.
-/

namespace LaunchOptions

open Text (isDigit IsDigits Numeral)

/-- What follows the lower bound of a gate. -/
inductive GateEnd where
  | nothing
  | hyphen
  /-- A hyphen and an upper bound. -/
  | bound (upper : Text)
  deriving DecidableEq, Repr

/-- The characters that follow the lower bound. -/
def GateEnd.text : GateEnd → Text
  | nothing => []
  | hyphen => ['-']
  | bound upper => '-' :: upper

/-- A gate as it is written, without the colon that ends it. -/
structure Gate where
  lower : Text
  ending : GateEnd
  deriving DecidableEq, Repr

namespace Gate

/-- The characters of a gate. -/
def text (gate : Gate) : Text := gate.lower ++ gate.ending.text

/-- The bounds of a gate are runs of digits. -/
def WellFormed (gate : Gate) : Prop :=
  IsDigits gate.lower ∧ ∀ upper, gate.ending = .bound upper → IsDigits upper

/-- The versions that a gate lets through. No bound is above 2147483647, and two bounds are in
order. -/
def Names (gate : Gate) (range : VersionRange) : Prop :=
  ∃ m, Numeral gate.lower m ∧ m ≤ 2147483647 ∧
    match gate.ending with
    | .nothing => range = ⟨m, m⟩
    | .hyphen => range = ⟨m, 2147483647⟩
    | .bound upper => ∃ n, Numeral upper n ∧ n ≤ 2147483647 ∧ m ≤ n ∧ range = ⟨m, n⟩

/-- A gate that names versions is well formed. -/
theorem Names.wellFormed {gate : Gate} {range : VersionRange} (h : gate.Names range) :
    gate.WellFormed := by
  obtain ⟨m, hl, -, he⟩ := h
  refine ⟨hl.isDigits, ?_⟩
  intro upper hu
  rw [hu] at he
  obtain ⟨n, hn, -, -, -⟩ := he
  exact hn.isDigits

/-- A gate that names versions lets some version through that can be a bound. -/
theorem Names.lower_le_upper {gate : Gate} {range : VersionRange} (h : gate.Names range) :
    range.lower ≤ range.upper ∧ range.upper ≤ 2147483647 := by
  obtain ⟨m, -, hm, he⟩ := h
  split at he
  · subst he
    exact ⟨Nat.le_refl m, hm⟩
  · subst he
    exact ⟨hm, Nat.le_refl _⟩
  · obtain ⟨n, -, hn, hmn, rfl⟩ := he
    exact ⟨hmn, hn⟩

/-- A gate begins with a digit. -/
theorem WellFormed.exists_digit {gate : Gate} (h : gate.WellFormed) :
    ∃ d rest, isDigit d ∧ gate.text = d :: rest := by
  obtain ⟨d, rest, hl⟩ := List.exists_cons_of_ne_nil h.1.1
  refine ⟨d, rest ++ gate.ending.text, h.1.2 d (by simp [hl]), ?_⟩
  rw [text, hl, List.cons_append]

/-- What follows the lower bound begins with no digit. -/
theorem exists_ending_cons (ending : GateEnd) (option : Text) :
    ∃ d rest, isDigit d = false ∧ ending.text ++ ':' :: option = d :: rest := by
  cases ending with
  | nothing => exact ⟨':', option, rfl, rfl⟩
  | hyphen => exact ⟨'-', ':' :: option, rfl, rfl⟩
  | bound upper => exact ⟨'-', upper ++ ':' :: option, rfl, rfl⟩

/-- The lower bound is the digits that a line with a gate begins with. -/
theorem WellFormed.span {gate : Gate} (h : gate.WellFormed) (option : Text) :
    (gate.text ++ ':' :: option).takeWhile isDigit = gate.lower ∧
      (gate.text ++ ':' :: option).dropWhile isDigit = gate.ending.text ++ ':' :: option := by
  obtain ⟨d, rest, hd, he⟩ := exists_ending_cons gate.ending option
  rw [text, List.append_assoc, he]
  exact h.1.span rest hd

/-- The end of a gate can be told from the text that begins with it in one way only. -/
theorem ending_unique {ending ending' : GateEnd} {option option' : Text}
    (h : ∀ upper, ending = .bound upper → IsDigits upper)
    (h' : ∀ upper, ending' = .bound upper → IsDigits upper)
    (he : ending.text ++ ':' :: option = ending'.text ++ ':' :: option') :
    ending = ending' ∧ option = option' := by
  have colon {upper rest o : Text} (hu : IsDigits upper) : ':' :: o ≠ upper ++ rest := by
    intro hc
    obtain ⟨d, more, hd⟩ := List.exists_cons_of_ne_nil hu.1
    rw [hd, List.cons_append] at hc
    have hdigit := hu.2 d (by simp [hd])
    rw [← (List.cons.inj hc).1] at hdigit
    exact absurd hdigit (by decide)
  cases ending with
  | nothing => cases ending' <;> simp_all [GateEnd.text]
  | hyphen =>
    cases ending' with
    | nothing => simp [GateEnd.text] at he
    | hyphen => simpa [GateEnd.text] using he
    | bound upper =>
      have hc : ':' :: option = upper ++ ':' :: option' := (List.cons.inj he).2
      exact absurd hc (colon (h' upper rfl))
  | bound upper =>
    cases ending' with
    | nothing => simp [GateEnd.text] at he
    | hyphen =>
      have hc : upper ++ ':' :: option = ':' :: option' := (List.cons.inj he).2
      exact absurd hc.symm (colon (h upper rfl))
    | bound upper' =>
      have hc : upper ++ ':' :: option = upper' ++ ':' :: option' := (List.cons.inj he).2
      have hs := (h upper rfl).span option (d := ':') rfl
      have hs' := (h' upper' rfl).span option' (d := ':') rfl
      rw [hc] at hs
      refine ⟨congrArg GateEnd.bound (hs.1.symm.trans hs'.1), ?_⟩
      exact (List.cons.inj (hs.2.symm.trans hs'.2)).2

/-- A gate and the option after it can be told from a line in one way only. -/
theorem eq_of_append_eq {gate gate' : Gate} {option option' : Text} (h : gate.WellFormed)
    (h' : gate'.WellFormed) (he : gate.text ++ ':' :: option = gate'.text ++ ':' :: option') :
    gate = gate' ∧ option = option' := by
  have hs := h.span option
  have hs' := h'.span option'
  rw [he] at hs
  have hl : gate.lower = gate'.lower := hs.1.symm.trans hs'.1
  obtain ⟨hend, ho⟩ := ending_unique h.2 h'.2 (hs.2.symm.trans hs'.2)
  refine ⟨?_, ho⟩
  cases gate
  cases gate'
  simp_all

end Gate

namespace OptionLine

/-- An option: a hyphen, and no line feed anywhere. -/
def IsOptionText (t : Text) : Prop := t.head? = some '-' ∧ '\n' ∉ t

/-- The characters of a blank line. -/
def blanks : List Char := [' ', '\t', '\n', '\x0B', '\x0C', '\r']

/-- A line with a gate: the gate, a colon and an option. -/
def IsGated (line : Text) (range : VersionRange) (option : Text) : Prop :=
  ∃ gate : Gate, gate.Names range ∧ IsOptionText option ∧ line = gate.text ++ ':' :: option

/-- The test for blanks is exact. -/
theorem isBlank_iff {c : Char} : isBlank c = true ↔ c ∈ blanks := by
  simp [isBlank, blanks, or_assoc]

/-- The test for options is exact. -/
theorem isOption_iff {t : Text} : isOption t = true ↔ IsOptionText t := by
  unfold isOption
  split
  · simp [IsOptionText]
  · next h =>
    cases t with
    | nil => simp [IsOptionText]
    | cons c rest =>
      have hc : c ≠ '-' := fun hc ↦ h rest (by rw [hc])
      simp [IsOptionText, hc]

/-- Digits are a bound if the number that they name is not too large. -/
theorem bound?_eq_some_iff {digits : Text} {n : Nat} (h : IsDigits digits) :
    bound? digits = some n ↔ Numeral digits n ∧ n ≤ 2147483647 := by
  rw [Text.numeral_iff, bound?, VersionRange.maxBound]
  simp only [Option.ite_none_right_eq_some, Option.some.injEq]
  constructor
  · rintro ⟨hle, rfl⟩
    exact ⟨⟨h, rfl⟩, hle⟩
  · rintro ⟨⟨-, rfl⟩, hle⟩
    exact ⟨hle, rfl⟩

/-- Two bounds make a range if they are in order. -/
theorem between?_eq_some_iff {m n : Nat} {range : VersionRange} :
    VersionRange.between? m n = some range ↔ m ≤ n ∧ range = ⟨m, n⟩ := by
  simp only [VersionRange.between?, Option.ite_none_right_eq_some, Option.some.injEq]
  rw [eq_comm]

/-- What the digits before a colon and after a hyphen can be: none, or an upper bound. -/
private theorem ending_of_hyphen {rest option : Text}
    (h : rest.dropWhile isDigit = ':' :: option) :
    rest = rest.takeWhile isDigit ++ ':' :: option ∧
      (rest.takeWhile isDigit ≠ [] → IsDigits (rest.takeWhile isDigit)) := by
  refine ⟨?_, fun hne ↦ ⟨hne, fun c hc ↦ List.mem_takeWhile_imp hc⟩⟩
  rw [← h, List.takeWhile_append_dropWhile]

/-- The reading of what follows a lower bound, against the ends that a gate can have. -/
theorem exists_ending_of_gated? {lower after option : Text} {range : VersionRange}
    (h : IsDigits lower) (hg : gated? lower after = some (range, option)) :
    ∃ ending, Gate.Names ⟨lower, ending⟩ range ∧ after = ending.text ++ ':' :: option := by
  unfold gated? at hg
  split at hg
  · next o =>
    obtain ⟨m, hm, he⟩ := Option.bind_eq_some_iff.mp hg
    cases he
    obtain ⟨hl, hle⟩ := (bound?_eq_some_iff h).mp hm
    exact ⟨.nothing, ⟨m, hl, hle, rfl⟩, rfl⟩
  · next rest =>
    simp only at hg
    split at hg
    · next o hd =>
      obtain ⟨hrest, hupper⟩ := ending_of_hyphen hd
      split at hg
      · next hempty =>
        obtain ⟨m, hm, he⟩ := Option.bind_eq_some_iff.mp hg
        cases he
        obtain ⟨hl, hle⟩ := (bound?_eq_some_iff h).mp hm
        rw [List.isEmpty_iff.mp hempty] at hrest
        exact ⟨.hyphen, ⟨m, hl, hle, rfl⟩, congrArg ('-' :: ·) hrest⟩
      · next hempty =>
        obtain ⟨m, hm, hg⟩ := Option.bind_eq_some_iff.mp hg
        obtain ⟨n, hn, hg⟩ := Option.bind_eq_some_iff.mp hg
        obtain ⟨r, hr, he⟩ := Option.bind_eq_some_iff.mp hg
        cases he
        have hd := hupper (by simpa using hempty)
        obtain ⟨hl, hle⟩ := (bound?_eq_some_iff h).mp hm
        obtain ⟨hu, hle'⟩ := (bound?_eq_some_iff hd).mp hn
        obtain ⟨hmn, rfl⟩ := between?_eq_some_iff.mp hr
        refine ⟨.bound (rest.takeWhile isDigit), ⟨m, hl, hle, n, hu, hle', hmn, rfl⟩, ?_⟩
        exact congrArg ('-' :: ·) hrest
    · cases hg
  · cases hg

/-- An end of a gate is read as the range that it names. -/
theorem gated?_of_names {gate : Gate} {option : Text} {range : VersionRange}
    (h : gate.Names range) :
    gated? gate.lower (gate.ending.text ++ ':' :: option) = some (range, option) := by
  obtain ⟨m, hl, hm, he⟩ := h
  have hlower := (bound?_eq_some_iff hl.isDigits).mpr ⟨hl, hm⟩
  split at he
  · next hend =>
    subst he
    simp [hend, GateEnd.text, gated?, hlower, VersionRange.exactly]
  · next hend =>
    subst he
    simp [hend, GateEnd.text, gated?, hlower, VersionRange.atLeast, VersionRange.maxBound,
      (by decide : isDigit ':' = false)]
  · next upper hend =>
    obtain ⟨n, hu, hn, hmn, rfl⟩ := he
    have hupper := (bound?_eq_some_iff hu.isDigits).mpr ⟨hu, hn⟩
    obtain ⟨ht, hd⟩ := hu.isDigits.span option (d := ':') rfl
    have hne : upper.isEmpty = false := by simpa using hu.isDigits.1
    simp [hend, GateEnd.text, gated?, hlower, hupper, ht, hd, hne,
      between?_eq_some_iff.mpr ⟨hmn, rfl⟩]

/-! ### Readings -/

/-- A line with a gate begins with a digit. -/
theorem IsGated.exists_digit {line option : Text} {range : VersionRange}
    (h : IsGated line range option) : ∃ d rest, isDigit d ∧ line = d :: rest := by
  obtain ⟨gate, hg, -, rfl⟩ := h
  obtain ⟨d, rest, hd, ht⟩ := hg.wellFormed.exists_digit
  exact ⟨d, rest ++ ':' :: option, hd, by rw [ht, List.cons_append]⟩

/-- The option of a line with a gate ends that line. -/
theorem IsGated.isSuffix {line option : Text} {range : VersionRange}
    (h : IsGated line range option) : option <:+ line := by
  obtain ⟨gate, -, -, rfl⟩ := h
  exact ⟨gate.text ++ [':'], by simp⟩

/-- A line that begins with a digit is no option. -/
theorem isOption_of_digit {d : Char} {rest : Text} (h : isDigit d) :
    isOption (d :: rest) = false := by
  rw [Bool.eq_false_iff, ne_eq, isOption_iff]
  rintro ⟨hd, -⟩
  rw [Option.some.inj hd] at h
  exact absurd h (by decide)

/-- A line with content is an option exactly if it begins with a hyphen and holds no line feed. -/
theorem ofContent_eq_unconditional_iff {line option : Text} :
    ofContent line = .unconditional option ↔ option = line ∧ IsOptionText line := by
  rw [← isOption_iff]
  unfold ofContent
  constructor
  · intro h
    split at h
    · next ho => exact ⟨(OptionLine.unconditional.inj h).symm, ho⟩
    · dsimp only at h
      split at h
      · cases h
      · split at h
        · split at h <;> cases h
        · cases h
  · rintro ⟨rfl, ho⟩
    rw [if_pos ho]

/-- A line with content is an option behind a gate exactly if the grammar says so. -/
theorem ofContent_eq_conditional_iff {line option : Text} {range : VersionRange} :
    ofContent line = .conditional range option ↔ IsGated line range option := by
  constructor
  · intro h
    unfold ofContent at h
    split at h
    · cases h
    · dsimp only at h
      split at h
      · cases h
      · next hempty =>
        have hlower : IsDigits (line.takeWhile isDigit) :=
          ⟨by simpa using hempty, fun c hc ↦ List.mem_takeWhile_imp hc⟩
        split at h
        · next r o hg =>
          split at h
          · next ho =>
            cases h
            obtain ⟨ending, hn, hd⟩ := exists_ending_of_gated? hlower hg
            refine ⟨⟨line.takeWhile isDigit, ending⟩, hn, isOption_iff.mp ho, ?_⟩
            rw [Gate.text, List.append_assoc, ← hd, List.takeWhile_append_dropWhile]
          · cases h
        · cases h
  · intro h
    obtain ⟨d, rest, hd, hline⟩ := h.exists_digit
    have hno : isOption line = false := by rw [hline, isOption_of_digit hd]
    obtain ⟨gate, hg, ho, rfl⟩ := h
    obtain ⟨hl, hr⟩ := hg.wellFormed.span option
    have hempty : gate.lower.isEmpty = false := by simpa using hg.wellFormed.1.1
    simp [ofContent, hno, hl, hr, hempty, gated?_of_names hg, isOption_iff.mpr ho]

/-- A line with content is neither a comment nor blank. -/
theorem ofContent_cases (line : Text) :
    ofContent line = .invalid ∨ (∃ option, ofContent line = .unconditional option) ∨
      ∃ range option, ofContent line = .conditional range option := by
  unfold ofContent
  split
  · exact .inr (.inl ⟨line, rfl⟩)
  · dsimp only
    split
    · exact .inl rfl
    · split
      · next range option _ =>
        split
        · exact .inr (.inr ⟨range, option, rfl⟩)
        · exact .inl rfl
      · exact .inl rfl

/-- The three ways in which a line is read. -/
theorem classify_cases (line : Text) :
    (∃ rest, line = '#' :: rest) ∧ classify line = .comment ∨
      (∀ c ∈ line, c ∈ blanks) ∧ classify line = .blank ∨
      (∃ c rest, line = c :: rest ∧ c ≠ '#') ∧ (∃ c ∈ line, c ∉ blanks) ∧
        classify line = ofContent line := by
  cases line with
  | nil => exact .inr (.inl ⟨by simp, rfl⟩)
  | cons c rest =>
    by_cases hc : c = '#'
    · subst hc
      exact .inl ⟨⟨rest, rfl⟩, by simp [classify]⟩
    · by_cases hb : ∀ x ∈ c :: rest, x ∈ blanks
      · have hall : (c :: rest).all isBlank = true :=
          List.all_eq_true.mpr fun x hx ↦ isBlank_iff.mpr (hb x hx)
        refine .inr (.inl ⟨hb, ?_⟩)
        rw [classify, if_neg (by simpa using hc), if_pos hall]
      · have hall : ¬ (c :: rest).all isBlank = true := by
          intro h
          exact hb fun x hx ↦ isBlank_iff.mp (List.all_eq_true.mp h x hx)
        have hcontent : ∃ x ∈ c :: rest, x ∉ blanks := by
          simpa only [not_forall, exists_prop] using hb
        refine .inr (.inr ⟨⟨c, rest, rfl, hc⟩, hcontent, ?_⟩)
        rw [classify, if_neg (by simpa using hc), if_neg hall]

/-- A comment is a line that begins with a number sign. -/
theorem classify_eq_comment_iff {line : Text} :
    classify line = .comment ↔ ∃ rest, line = '#' :: rest := by
  rcases classify_cases line with ⟨hc, h⟩ | ⟨hb, h⟩ | ⟨⟨c, rest, rfl, hc⟩, -, h⟩
  · simp [h, hc]
  · rw [h]
    refine ⟨by rintro ⟨⟩, ?_⟩
    rintro ⟨rest, rfl⟩
    exact absurd (hb '#' (by simp)) (by decide)
  · rw [h]
    constructor
    · intro hcomment
      rcases ofContent_cases (c :: rest) with h | ⟨_, h⟩ | ⟨_, _, h⟩ <;> simp [h] at hcomment
    · rintro ⟨r, hr⟩
      exact absurd (List.cons.inj hr).1 hc

/-- A blank line holds nothing but blanks. -/
theorem classify_eq_blank_iff {line : Text} :
    classify line = .blank ↔ ∀ c ∈ line, c ∈ blanks := by
  rcases classify_cases line with ⟨⟨rest, rfl⟩, h⟩ | ⟨hb, h⟩ | ⟨-, ⟨c, hmem, hc⟩, h⟩
  · rw [h]
    refine ⟨by rintro ⟨⟩, ?_⟩
    intro hb
    exact absurd (hb '#' (by simp)) (by decide)
  · simp only [h, true_iff]
    exact hb
  · rw [h]
    constructor
    · intro hblank
      rcases ofContent_cases line with h | ⟨_, h⟩ | ⟨_, _, h⟩ <;> simp [h] at hblank
    · intro hb
      exact absurd (hb c hmem) hc

/-- An option for every version is a line that is an option. -/
theorem classify_eq_unconditional_iff {line option : Text} :
    classify line = .unconditional option ↔ option = line ∧ IsOptionText line := by
  rcases classify_cases line with ⟨⟨rest, rfl⟩, h⟩ | ⟨hb, h⟩ | ⟨-, -, h⟩
  · simp [h, IsOptionText]
  · rw [h]
    refine ⟨by rintro ⟨⟩, ?_⟩
    rintro ⟨-, hhead, -⟩
    exact absurd (hb '-' (List.mem_of_head? hhead)) (by decide)
  · rw [h, ofContent_eq_unconditional_iff]

/-- An option for a range of versions is a line with a gate for that range. -/
theorem classify_eq_conditional_iff {line option : Text} {range : VersionRange} :
    classify line = .conditional range option ↔ IsGated line range option := by
  rcases classify_cases line with ⟨⟨rest, rfl⟩, h⟩ | ⟨hb, h⟩ | ⟨-, -, h⟩
  · rw [h]
    refine ⟨by rintro ⟨⟩, ?_⟩
    intro hg
    obtain ⟨d, r, hd, hr⟩ := hg.exists_digit
    rw [← (List.cons.inj hr).1] at hd
    exact absurd hd (by decide)
  · rw [h]
    refine ⟨by rintro ⟨⟩, ?_⟩
    intro hg
    obtain ⟨d, r, hd, rfl⟩ := hg.exists_digit
    have hblank := hb d (by simp)
    simp only [blanks, List.mem_cons, List.not_mem_nil, or_false] at hblank
    rcases hblank with rfl | rfl | rfl | rfl | rfl | rfl <;> exact absurd hd (by decide)
  · rw [h, ofContent_eq_conditional_iff]

/-- A line is invalid if the grammar has no other reading of it. -/
theorem classify_eq_invalid_iff {line : Text} :
    classify line = .invalid ↔
      (¬ ∃ rest, line = '#' :: rest) ∧ (¬ ∀ c ∈ line, c ∈ blanks) ∧ ¬ IsOptionText line ∧
        ¬ ∃ range option, IsGated line range option := by
  rw [← classify_eq_comment_iff, ← classify_eq_blank_iff]
  simp only [← classify_eq_conditional_iff]
  have hoption : IsOptionText line ↔ classify line = .unconditional line := by
    simp [classify_eq_unconditional_iff]
  have hwhole {option : Text} (h : classify line = .unconditional option) : option = line :=
    (classify_eq_unconditional_iff.mp h).1
  rw [hoption]
  cases h : classify line with
  | unconditional option => simp [hwhole h]
  | comment => simp
  | blank => simp
  | conditional range option => simp
  | invalid => simp

/-- The versions that a line gives an option to. -/
theorem optionFor_eq_some_iff {reading : OptionLine} {version : Nat} {option : Text} :
    reading.optionFor version = some option ↔
      reading = .unconditional option ∨
        ∃ range, reading = .conditional range option ∧
          range.lower ≤ version ∧ version ≤ range.upper := by
  cases reading with
  | unconditional o => simp [optionFor]
  | conditional range o =>
    simp only [optionFor, Option.ite_none_right_eq_some, Option.some.injEq,
      VersionRange.contains_iff, reduceCtorEq, false_or, conditional.injEq]
    constructor
    · rintro ⟨hv, rfl⟩
      exact ⟨range, ⟨rfl, rfl⟩, hv⟩
    · rintro ⟨_, ⟨rfl, rfl⟩, hv⟩
      exact ⟨hv, rfl⟩
  | comment => simp [optionFor]
  | blank => simp [optionFor]
  | invalid => simp [optionFor]

/-- The option that a line gives to some version ends that line. -/
theorem isSuffix_of_optionFor {line option : Text} {version : Nat}
    (h : (classify line).optionFor version = some option) : option <:+ line := by
  rcases optionFor_eq_some_iff.mp h with h | ⟨range, h, -⟩
  · obtain ⟨rfl, -⟩ := classify_eq_unconditional_iff.mp h
    exact List.suffix_refl option
  · exact (classify_eq_conditional_iff.mp h).isSuffix

/-- A line with an option gives it to some version that can be a bound. -/
theorem exists_optionFor {line option : Text}
    (h : classify line = .unconditional option ∨
      ∃ range, classify line = .conditional range option) :
    ∃ version ≤ 2147483647, (classify line).optionFor version = some option := by
  rcases h with h | ⟨range, h⟩
  · exact ⟨0, Nat.zero_le _, optionFor_eq_some_iff.mpr (.inl h)⟩
  · obtain ⟨gate, hg, -, -⟩ := classify_eq_conditional_iff.mp h
    obtain ⟨hle, hmax⟩ := hg.lower_le_upper
    exact ⟨range.upper, hmax, optionFor_eq_some_iff.mpr (.inr ⟨range, h, hle, Nat.le_refl _⟩)⟩

/-- The grammar of lines. Each reading has the texts that are said of it and no others, a gate and
its option can be told from a line in one way only, and an option is given to the versions that its
gate names, of which there is at least one. -/
theorem classify_iff_grammar (line : Text) :
    (classify line = .comment ↔ ∃ rest, line = '#' :: rest) ∧
    (classify line = .blank ↔ ∀ c ∈ line, c ∈ blanks) ∧
    (∀ option, classify line = .unconditional option ↔ option = line ∧ IsOptionText line) ∧
    (∀ range option, classify line = .conditional range option ↔ IsGated line range option) ∧
    (classify line = .invalid ↔
      (¬ ∃ rest, line = '#' :: rest) ∧ (¬ ∀ c ∈ line, c ∈ blanks) ∧ ¬ IsOptionText line ∧
        ¬ ∃ range option, IsGated line range option) ∧
    (∀ (gate gate' : Gate) (option option' : Text), gate.WellFormed → gate'.WellFormed →
      line = gate.text ++ ':' :: option → line = gate'.text ++ ':' :: option' →
        gate = gate' ∧ option = option') ∧
    (∀ version option, (classify line).optionFor version = some option ↔
      classify line = .unconditional option ∨
        ∃ range, classify line = .conditional range option ∧
          range.lower ≤ version ∧ version ≤ range.upper) ∧
    (∀ version option, (classify line).optionFor version = some option → option <:+ line) ∧
    (∀ option, (classify line = .unconditional option ∨
        ∃ range, classify line = .conditional range option) →
      ∃ version ≤ 2147483647, (classify line).optionFor version = some option) := by
  refine ⟨classify_eq_comment_iff, classify_eq_blank_iff,
    fun _ ↦ classify_eq_unconditional_iff, fun _ _ ↦ classify_eq_conditional_iff,
    classify_eq_invalid_iff, ?_, fun _ _ ↦ optionFor_eq_some_iff,
    fun _ _ ↦ isSuffix_of_optionFor, fun _ ↦ exists_optionFor⟩
  intro gate gate' option option' h h' he he'
  exact Gate.eq_of_append_eq h h' (he.symm.trans he')

example : classify "11-:-Xmx2g".toList = .conditional ⟨11, 2147483647⟩ "-Xmx2g".toList := by decide
example : classify "17-11:-ea".toList = .invalid := by decide
example : classify "007:-ea".toList = .conditional ⟨7, 7⟩ "-ea".toList := by decide

end OptionLine

end LaunchOptions

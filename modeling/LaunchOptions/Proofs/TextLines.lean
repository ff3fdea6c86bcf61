import LaunchOptions.Proofs.DecodedText

/-!
# Lines of a text

A text is split at its line breaks: a line feed, a carriage return, or the two in that order. Its
lines are stretches of it, and they are all of it but the breaks. To put another character, also no
break, in the place of one changes that character of its line and nothing else.
-/

namespace LaunchOptions.Text

/-- The lines of a text, each without its line break. After the last break there is a line only if
there is a text. -/
def lines : Text → List Text
  | [] => []
  | '\r' :: '\n' :: rest => [] :: lines rest
  | c :: rest =>
    if c ∈ lineBreaks then [] :: lines rest
    else match lines rest with
      | [] => [[c]]
      | line :: more => (c :: line) :: more

/-- What follows a line break, without a line feed that belongs to the break. -/
def afterBreak : Char → Text → Text
  | '\r', '\n' :: rest => rest
  | _, rest => rest

/-- The line feed that belongs to a line break is all that is left out. -/
theorem afterBreak_cases (c : Char) (rest : Text) :
    (c = '\r' ∧ rest = '\n' :: afterBreak c rest) ∨
      ((∀ more, c = '\r' → rest ≠ '\n' :: more) ∧ afterBreak c rest = rest) := by
  unfold afterBreak
  split
  · exact .inl ⟨rfl, rfl⟩
  · next h => exact .inr ⟨h, rfl⟩

private theorem afterBreak_isSuffix (c : Char) (rest : Text) : afterBreak c rest <:+ rest := by
  rcases afterBreak_cases c rest with ⟨-, h⟩ | ⟨-, h⟩
  · exact ⟨['\n'], h.symm⟩
  · exact ⟨[], h⟩

/-- What comes after some text does not change what belongs to a line break, unless it begins with a
line break itself. -/
theorem afterBreak_append (c : Char) (rest : Text) {d : Char} (hd : d ∉ lineBreaks)
    (after : Text) : afterBreak c (rest ++ d :: after) = afterBreak c rest ++ d :: after := by
  rcases afterBreak_cases c rest with ⟨rfl, h⟩ | ⟨hpaired, h⟩
  · rw [h]
    rfl
  · rw [h]
    rcases afterBreak_cases c (rest ++ d :: after) with ⟨hc, hafter⟩ | ⟨-, hafter⟩
    · cases rest with
      | nil => exact absurd (mem_lineBreaks.mpr (.inl (List.cons.inj hafter).1)) hd
      | cons e more =>
        exact absurd (congrArg (· :: more) (List.cons.inj hafter).1) (hpaired more hc)
    · exact hafter

/-- A line break ends an empty line. -/
theorem lines_break {c : Char} (h : c ∈ lineBreaks) (rest : Text) :
    lines (c :: rest) = [] :: lines (afterBreak c rest) := by
  rcases afterBreak_cases c rest with ⟨rfl, hrest⟩ | ⟨hpaired, hrest⟩
  · rw [hrest]
    rfl
  · rw [hrest, lines, if_pos h]
    exact hpaired

/-- Another character joins the line after it. -/
theorem lines_cons {c : Char} (h : c ∉ lineBreaks) (rest : Text) :
    lines (c :: rest) = match lines rest with
      | [] => [[c]]
      | line :: more => (c :: line) :: more := by
  rw [lines, if_neg h]
  rintro more rfl
  exact absurd (mem_lineBreaks.mpr (.inr rfl)) h

/-- What holds of no text, after a line break if it holds of what follows the break, and of a text
with another character in front, holds of every text. -/
@[elab_as_elim]
theorem lines_induction {P : Text → Prop} (t : Text) (nil : P [])
    (lineBreak : ∀ c rest, c ∈ lineBreaks → P (afterBreak c rest) → P (c :: rest))
    (cons : ∀ c rest, c ∉ lineBreaks → P rest → P (c :: rest)) : P t := by
  fun_induction lines t with
  | case1 => exact nil
  | case2 rest ih => exact lineBreak '\r' ('\n' :: rest) (by simp [lineBreaks]) ih
  | case3 c rest hpaired hc ih =>
    refine lineBreak c rest hc ?_
    rcases afterBreak_cases c rest with ⟨hreturn, hrest⟩ | ⟨-, hrest⟩
    · exact absurd hrest (hpaired _ hreturn)
    · rwa [hrest]
  | case4 c rest _ hc _ ih => exact cons c rest hc ih
  | case5 c rest _ hc _ _ _ ih => exact cons c rest hc ih

/-- A text without a line break is one line, unless it is empty. -/
theorem lines_of_forall {t : Text} (h : ∀ c ∈ t, c ∉ lineBreaks) (hne : t ≠ []) :
    lines t = [t] := by
  induction t with
  | nil => exact absurd rfl hne
  | cons c rest ih =>
    rw [lines_cons (h c (by simp))]
    by_cases hr : rest = []
    · subst hr
      rfl
    · rw [ih (fun d hd ↦ h d (by simp [hd])) hr]

/-- The first line break ends the first line. -/
theorem lines_append_break {line : Text} {c : Char} (hline : ∀ d ∈ line, d ∉ lineBreaks)
    (hc : c ∈ lineBreaks) (rest : Text) :
    lines (line ++ c :: rest) = line :: lines (afterBreak c rest) := by
  induction line with
  | nil => exact lines_break hc rest
  | cons d more ih =>
    rw [List.cons_append, lines_cons (hline d (by simp)), ih fun e he ↦ hline e (by simp [he])]

/-- The first line is at the beginning of the text, and each line is a stretch of it. -/
theorem lines_isInfix (t : Text) :
    (∀ line ∈ (lines t).head?, line <+: t) ∧ ∀ line ∈ lines t, line <:+: t := by
  induction t using lines_induction with
  | nil => simp [lines]
  | lineBreak c rest hc ih =>
    rw [lines_break hc]
    refine ⟨by simp, ?_⟩
    intro line hline
    rcases List.mem_cons.mp hline with rfl | hline
    · exact List.nil_infix
    · exact List.infix_cons ((ih.2 line hline).trans (afterBreak_isSuffix c rest).isInfix)
  | cons c rest hc ih =>
    rw [lines_cons hc]
    cases hlines : lines rest with
    | nil =>
      have hprefix : [c] <+: c :: rest := List.cons_prefix_cons.mpr ⟨rfl, List.nil_prefix⟩
      refine ⟨by simp, ?_⟩
      intro line hline
      rw [List.mem_singleton.mp hline]
      exact hprefix.isInfix
    | cons first more =>
      rw [hlines] at ih
      have hprefix : c :: first <+: c :: rest :=
        List.cons_prefix_cons.mpr ⟨rfl, ih.1 first (by simp)⟩
      refine ⟨by simpa using hprefix, ?_⟩
      intro line hline
      rcases List.mem_cons.mp hline with rfl | hline
      · exact hprefix.isInfix
      · exact List.infix_cons (ih.2 line (by simp [hline]))

/-- The lines are the text without its line breaks. -/
theorem flatten_lines (t : Text) : (lines t).flatten = t.filter (· ∉ lineBreaks) := by
  induction t using lines_induction with
  | nil => rfl
  | lineBreak c rest hc ih =>
    have hafter : (afterBreak c rest).filter (· ∉ lineBreaks) = rest.filter (· ∉ lineBreaks) := by
      rcases afterBreak_cases c rest with ⟨-, h⟩ | ⟨-, h⟩
      · have hfeed : '\n' ∈ lineBreaks := by simp [lineBreaks]
        have hfilter := congrArg (List.filter (· ∉ lineBreaks)) h
        rw [List.filter_cons_of_neg (by simpa using hfeed)] at hfilter
        exact hfilter.symm
      · rw [h]
    rw [lines_break hc, List.flatten_cons, List.nil_append, ih, hafter,
      List.filter_cons_of_neg (by simpa using hc)]
  | cons c rest hc ih =>
    rw [lines_cons hc, List.filter_cons_of_pos (by simpa using hc), ← ih]
    cases lines rest with
    | nil => rfl
    | cons first more => rfl

/-- A character that is no line break stands in one line. The lines before and after, and what comes
before it in its own, do not depend on it. -/
theorem exists_lines_append_cons (before after : Text) {c : Char} (hc : c ∈ lineBreaks) :
    ∃ earlier line, ∀ d, d ∉ lineBreaks →
      lines (before ++ d :: c :: after) =
        earlier ++ (line ++ [d]) :: lines (afterBreak c after) := by
  induction before using lines_induction with
  | nil =>
    refine ⟨[], [], fun d hd ↦ ?_⟩
    have hline : ∀ e ∈ [d], e ∉ lineBreaks := by simpa using hd
    exact lines_append_break hline hc after
  | lineBreak e rest he ih =>
    obtain ⟨earlier, line, ih⟩ := ih
    refine ⟨[] :: earlier, line, fun d hd ↦ ?_⟩
    rw [List.cons_append, lines_break he, afterBreak_append e rest hd, ih d hd, List.cons_append]
  | cons e rest he ih =>
    obtain ⟨earlier, line, ih⟩ := ih
    cases earlier with
    | nil =>
      refine ⟨[], e :: line, fun d hd ↦ ?_⟩
      rw [List.cons_append, lines_cons he, ih d hd]
      rfl
    | cons first more =>
      refine ⟨(e :: first) :: more, line, fun d hd ↦ ?_⟩
      rw [List.cons_append, lines_cons he, ih d hd]
      rfl

end LaunchOptions.Text

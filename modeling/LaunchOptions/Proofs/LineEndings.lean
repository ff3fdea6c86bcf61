import LaunchOptions.Proofs.DecodedLines
import LaunchOptions.Proofs.ParseOutcome

/-!
# Line endings

A text is written line by line, each line with its own ending. Two things are ambiguous and ruled
out: an empty line that ends in a line feed right after a line that ends in a carriage return, and
an empty line without an ending. What is left is a normal form: every text is written in exactly one
way, and reading the bytes of it gives its lines back, whichever endings they have.
-/

namespace LaunchOptions

/-- What stands after a line. -/
inductive LineEnding where
  | lineFeed
  | carriageReturn
  /-- A carriage return and a line feed. -/
  | both
  /-- Nothing: the text ends with its last line. -/
  | missing
  deriving DecidableEq, Repr

/-- The text of an ending. -/
def LineEnding.text : LineEnding → Text
  | .lineFeed => ['\n']
  | .carriageReturn => ['\r']
  | .both => ['\r', '\n']
  | .missing => []

/-- A line and its ending. -/
structure EndedLine where
  text : Text
  ending : LineEnding
  deriving DecidableEq, Repr

namespace EndedLine

/-- The text of some lines, one after another, each with its ending. -/
def written (lines : List EndedLine) : Text :=
  lines.flatMap fun line ↦ line.text ++ line.ending.text

/-- The lines are told apart by their endings: no line has a line break in it, a carriage return is
not the ending before an empty line that ends in a line feed, and an ending is missing at most after
the last line, if that is not empty. -/
structure Separate (lines : List EndedLine) : Prop where
  noBreak : ∀ line ∈ lines, ∀ c ∈ line.text, c ∉ Text.lineBreaks
  unpaired : lines.IsChain fun line next ↦ line.ending = .carriageReturn → next ≠ ⟨[], .lineFeed⟩
  ended : ∀ line ∈ lines.dropLast, line.ending ≠ .missing
  last : ∀ line ∈ lines.getLast?, line.ending = .missing → line.text ≠ []

/-- The lines of a text with their endings. -/
def ofText : Text → List EndedLine
  | [] => []
  | '\r' :: '\n' :: rest => ⟨[], .both⟩ :: ofText rest
  | '\r' :: rest => ⟨[], .carriageReturn⟩ :: ofText rest
  | '\n' :: rest => ⟨[], .lineFeed⟩ :: ofText rest
  | c :: rest =>
    match ofText rest with
    | [] => [⟨[c], .missing⟩]
    | line :: more => ⟨c :: line.text, line.ending⟩ :: more

/-! ### The lines of a text -/

/-- A character that is no line break joins the line after it. -/
theorem ofText_cons {c : Char} (h : c ∉ Text.lineBreaks) (rest : Text) :
    ofText (c :: rest) = match ofText rest with
      | [] => [⟨[c], .missing⟩]
      | line :: more => ⟨c :: line.text, line.ending⟩ :: more := by
  rw [Text.mem_lineBreaks, not_or] at h
  rw [ofText]
  · exact fun _ hc _ ↦ h.2 hc
  · exact h.2
  · exact h.1

/-- A carriage return without a line feed after it is an ending of its own. -/
theorem ofText_carriageReturn {rest : Text} (h : rest.head? ≠ some '\n') :
    ofText ('\r' :: rest) = ⟨[], .carriageReturn⟩ :: ofText rest := by
  rw [ofText]
  rintro more rfl
  exact h rfl

/-- What holds of no text, and of a text with an ending or another character in front if it holds of
that text, holds of every text. -/
@[elab_as_elim]
theorem ofText_induction {P : Text → Prop} (t : Text) (nil : P [])
    (both : ∀ rest, P rest → P ('\r' :: '\n' :: rest))
    (carriageReturn : ∀ rest, rest.head? ≠ some '\n' → P rest → P ('\r' :: rest))
    (lineFeed : ∀ rest, P rest → P ('\n' :: rest))
    (cons : ∀ c rest, c ∉ Text.lineBreaks → P rest → P (c :: rest)) : P t := by
  have hbreak {c : Char} (hreturn : c ≠ '\r') (hfeed : c ≠ '\n') : c ∉ Text.lineBreaks := by
    rw [Text.mem_lineBreaks, not_or]
    exact ⟨hfeed, hreturn⟩
  fun_induction ofText t with
  | case1 => exact nil
  | case2 rest ih => exact both rest ih
  | case3 rest hpaired ih =>
    refine carriageReturn rest (fun hhead ↦ ?_) ih
    obtain ⟨more, hmore⟩ := List.head?_eq_some_iff.mp hhead
    exact hpaired more hmore
  | case4 rest ih => exact lineFeed rest ih
  | case5 c rest _ hreturn hfeed _ ih => exact cons c rest (hbreak hreturn hfeed) ih
  | case6 c rest _ hreturn hfeed _ _ _ ih => exact cons c rest (hbreak hreturn hfeed) ih

/-- The first line is empty and ends in a line feed exactly if the text begins with one. -/
theorem head?_ofText_iff {t : Text} :
    (ofText t).head? = some ⟨[], .lineFeed⟩ ↔ t.head? = some '\n' := by
  fun_cases ofText t with
  | case1 => simp
  | case2 rest => simp
  | case3 rest _ => simp
  | case4 rest => simp
  | case5 c rest _ _ hfeed => simpa using hfeed
  | case6 c rest _ _ hfeed => simpa using hfeed

/-- Without their endings, the lines are those of the text. -/
theorem map_text_ofText (t : Text) : (ofText t).map EndedLine.text = t.lines := by
  induction t using ofText_induction with
  | nil => rfl
  | both rest ih => rw [ofText, List.map_cons, ih, Text.lines]
  | carriageReturn rest hfeed ih =>
    have hafter : Text.afterBreak '\r' rest = rest := by
      rcases Text.afterBreak_cases '\r' rest with ⟨-, h⟩ | ⟨-, h⟩
      · exact absurd (by rw [h, List.head?_cons]) hfeed
      · exact h
    rw [ofText_carriageReturn hfeed, List.map_cons, ih, Text.lines_break (by decide), hafter]
  | lineFeed rest ih =>
    rw [ofText, List.map_cons, ih, Text.lines_break (by decide)]
    rfl
  | cons c rest hc ih =>
    rw [ofText_cons hc, Text.lines_cons hc, ← ih]
    cases ofText rest with
    | nil => rfl
    | cons line more => rfl

/-- The lines with their endings are all of the text. -/
theorem written_ofText (t : Text) : written (ofText t) = t := by
  induction t using ofText_induction with
  | nil => rfl
  | both rest ih => simpa [written, ofText, LineEnding.text] using ih
  | carriageReturn rest hfeed ih =>
    rw [ofText_carriageReturn hfeed]
    simpa [written, LineEnding.text] using ih
  | lineFeed rest ih => simpa [written, ofText, LineEnding.text] using ih
  | cons c rest hc ih =>
    rw [ofText_cons hc]
    cases hlines : ofText rest with
    | nil =>
      rw [hlines] at ih
      rw [← ih]
      rfl
    | cons line more =>
      rw [hlines] at ih
      simpa [written] using ih

example : ofText "a\r\r\nb\n\rc".toList =
    [⟨['a'], .carriageReturn⟩, ⟨[], .both⟩, ⟨['b'], .lineFeed⟩, ⟨[], .carriageReturn⟩,
      ⟨['c'], .missing⟩] := by
  decide

/-! ### Separate lines -/

/-- Lines are separate if the first one is, and the others are. -/
theorem separate_cons_iff {line : EndedLine} {more : List EndedLine} :
    Separate (line :: more) ↔
      (∀ c ∈ line.text, c ∉ Text.lineBreaks) ∧
        (line.ending = .carriageReturn → more.head? ≠ some ⟨[], .lineFeed⟩) ∧
        (line.ending = .missing → more = [] ∧ line.text ≠ []) ∧ Separate more := by
  cases more with
  | nil =>
    constructor
    · rintro ⟨hbreak, -, -, hlast⟩
      have hline : line.ending = .missing → line.text ≠ [] := hlast line rfl
      exact ⟨hbreak line (by simp), by simp, fun h ↦ ⟨rfl, hline h⟩, by simp, by simp, by simp,
        by simp⟩
    · rintro ⟨hbreak, -, hmissing, -⟩
      exact ⟨by simpa using hbreak, by simp, by simp, by simpa using fun h ↦ (hmissing h).2⟩
  | cons next rest =>
    constructor
    · rintro ⟨hbreak, hunpaired, hended, hlast⟩
      rw [List.isChain_cons_cons] at hunpaired
      rw [List.forall_mem_cons] at hbreak
      rw [List.dropLast_cons_cons, List.forall_mem_cons] at hended
      refine ⟨hbreak.1, ?_, fun h ↦ absurd h hended.1, hbreak.2, hunpaired.2, hended.2, ?_⟩
      · simpa using hunpaired.1
      · simpa using hlast
    · rintro ⟨hbreak, hunpaired, hmissing, hmore⟩
      refine ⟨List.forall_mem_cons.mpr ⟨hbreak, hmore.noBreak⟩, ?_, ?_, ?_⟩
      · exact List.isChain_cons_cons.mpr ⟨by simpa using hunpaired, hmore.unpaired⟩
      · rw [List.dropLast_cons_cons, List.forall_mem_cons]
        exact ⟨fun h ↦ by simpa using (hmissing h).1, hmore.ended⟩
      · simpa using hmore.last

private theorem separate_nil : Separate [] := ⟨by simp, by simp, by simp, by simp⟩

/-- The lines of a text are separate. -/
theorem separate_ofText (t : Text) : Separate (ofText t) := by
  induction t using ofText_induction with
  | nil => exact separate_nil
  | both rest ih =>
    rw [ofText, separate_cons_iff]
    exact ⟨by simp, by simp, by simp, ih⟩
  | carriageReturn rest hfeed ih =>
    rw [ofText_carriageReturn hfeed, separate_cons_iff]
    exact ⟨by simp, fun _ h ↦ hfeed (head?_ofText_iff.mp h), by simp, ih⟩
  | lineFeed rest ih =>
    rw [ofText, separate_cons_iff]
    exact ⟨by simp, by simp, by simp, ih⟩
  | cons c rest hc ih =>
    rw [ofText_cons hc]
    cases hlines : ofText rest with
    | nil =>
      rw [separate_cons_iff]
      exact ⟨by simpa using hc, by simp, by simp, separate_nil⟩
    | cons line more =>
      rw [hlines, separate_cons_iff] at ih
      obtain ⟨hbreak, hunpaired, hmissing, hmore⟩ := ih
      rw [separate_cons_iff]
      exact ⟨List.forall_mem_cons.mpr ⟨hc, hbreak⟩, hunpaired,
        fun h ↦ ⟨(hmissing h).1, by simp⟩, hmore⟩

/-- Characters without a line break are a line without an ending. -/
theorem ofText_of_forall {t : Text} (h : ∀ c ∈ t, c ∉ Text.lineBreaks) (hne : t ≠ []) :
    ofText t = [⟨t, .missing⟩] := by
  induction t with
  | nil => exact absurd rfl hne
  | cons c rest ih =>
    rw [ofText_cons (h c (by simp))]
    by_cases hrest : rest = []
    · subst hrest
      rfl
    · rw [ih (fun d hd ↦ h d (by simp [hd])) hrest]

/-- An ending ends the first line. -/
theorem ofText_append {text : Text} {ending : LineEnding} {rest : Text}
    (htext : ∀ c ∈ text, c ∉ Text.lineBreaks) (hending : ending ≠ .missing)
    (hrest : ending = .carriageReturn → rest.head? ≠ some '\n') :
    ofText (text ++ (ending.text ++ rest)) = ⟨text, ending⟩ :: ofText rest := by
  induction text with
  | nil =>
    cases ending with
    | lineFeed => rfl
    | carriageReturn => exact ofText_carriageReturn (hrest rfl)
    | both => rfl
    | missing => exact absurd rfl hending
  | cons c more ih =>
    rw [List.cons_append, ofText_cons (htext c (by simp)),
      ih fun d hd ↦ htext d (by simp [hd])]

/-- Separate lines are the lines of the text that they are written as. -/
theorem ofText_written {lines : List EndedLine} (h : Separate lines) :
    ofText (written lines) = lines := by
  induction lines with
  | nil => rfl
  | cons line more ih =>
    obtain ⟨hbreak, hunpaired, hmissing, hmore⟩ := separate_cons_iff.mp h
    have ih := ih hmore
    have hwritten : written (line :: more) = line.text ++ (line.ending.text ++ written more) := by
      simp [written]
    rw [hwritten]
    by_cases hending : line.ending = .missing
    · obtain ⟨rfl, hne⟩ := hmissing hending
      have htext : line.text ++ (line.ending.text ++ written []) = line.text := by
        simp [hending, LineEnding.text, written]
      rw [htext, ofText_of_forall hbreak hne, ← hending]
    · have hfeed (hreturn : line.ending = .carriageReturn) :
          (written more).head? ≠ some '\n' := by
        rw [Ne, ← head?_ofText_iff, ih]
        exact hunpaired hreturn
      rw [ofText_append hbreak hending hfeed, ih]

/-- Lines are separate exactly if they are told apart in the text that they are written as. -/
theorem separate_iff {lines : List EndedLine} :
    Separate lines ↔ ofText (written lines) = lines := by
  constructor
  · exact ofText_written
  · intro h
    rw [← h]
    exact separate_ofText (written lines)

instance (lines : List EndedLine) : Decidable (Separate lines) :=
  decidable_of_iff _ separate_iff.symm

/-! ### Reading what is written -/

/-- Reading separate lines gives them back. -/
theorem contentLines_written {lines : List EndedLine} (h : Separate lines) :
    contentLines (Utf8.encode (written lines)) = lines.map EndedLine.text := by
  rw [contentLines_encode, ← map_text_ofText, ofText_written h]

/-- Every text is written as separate lines in exactly one way. -/
theorem existsUnique_written (t : Text) : ∃! lines, Separate lines ∧ written lines = t := by
  refine ⟨ofText t, ⟨separate_ofText t, written_ofText t⟩, ?_⟩
  rintro lines ⟨hseparate, rfl⟩
  exact (ofText_written hseparate).symm

/-- Bytes are well formed exactly if they are those of separate lines, which are the only ones
then. -/
theorem existsUnique_encode_written_iff (content : Bytes) :
    (∃ t, Utf8.decode? content = some t) ↔
      ∃! lines, Separate lines ∧ Utf8.encode (written lines) = content := by
  simp only [Utf8.decode?_eq_some_iff]
  constructor
  · rintro ⟨t, rfl⟩
    simp only [Utf8.encode_injective.eq_iff]
    exact existsUnique_written t
  · rintro ⟨lines, ⟨-, hcontent⟩, -⟩
    exact ⟨written lines, hcontent⟩

/-- Separate lines are read back from the bytes of the text that they are written as, in whatever
chunks these are delivered. So what a file gives, and what is recorded of it, depends on the lines
and not on their endings. All well-formed bytes are those of separate lines, and of one such list
only. -/
theorem lines?_written :
    (∀ lines, Separate lines → ∀ deliveries,
      LineSource.Delivers deliveries (Utf8.encode (written lines)) →
      LineSource.lines? ⟨deliveries, false⟩ = some (lines.map EndedLine.text)) ∧
    (∀ (version : Nat) (lines lines' : List EndedLine), Separate lines → Separate lines' →
      lines.map EndedLine.text = lines'.map EndedLine.text → ∀ deliveries deliveries',
      LineSource.Delivers deliveries (Utf8.encode (written lines)) →
      LineSource.Delivers deliveries' (Utf8.encode (written lines')) →
      ∃ outcome, ParseOutcome.ofSource? version ⟨deliveries, false⟩ = some outcome ∧
        ParseOutcome.ofSource? version ⟨deliveries', false⟩ = some outcome) ∧
    ∀ content : Bytes, (∃ t, Utf8.decode? content = some t) ↔
      ∃! lines, Separate lines ∧ Utf8.encode (written lines) = content := by
  have hread {lines : List EndedLine} (h : Separate lines) {deliveries : List Delivery}
      (hdeliveries : LineSource.Delivers deliveries (Utf8.encode (written lines))) :
      LineSource.lines? ⟨deliveries, false⟩ = some (lines.map EndedLine.text) := by
    rw [hdeliveries.lines?, contentLines_written h]
  refine ⟨fun lines h deliveries ↦ hread h, ?_, existsUnique_encode_written_iff⟩
  intro version lines lines' h h' htexts deliveries deliveries' hdeliveries hdeliveries'
  refine ⟨ParseOutcome.ofLines version (lines.map EndedLine.text), ?_, ?_⟩
  · rw [ParseOutcome.ofSource?, hread h hdeliveries, Option.map_some]
  · rw [ParseOutcome.ofSource?, hread h' hdeliveries', Option.map_some, htexts]

/-- An option, an empty line and a line without a reading, with three kinds of endings and delivered
in chunks that cut the second one in two; and the same lines with line feeds. -/
theorem lines?_written_cut :
    Separate [⟨['-', 'a'], .carriageReturn⟩, ⟨[], .both⟩, ⟨['x'], .missing⟩] ∧
      Separate [⟨['-', 'a'], .lineFeed⟩, ⟨[], .lineFeed⟩, ⟨['x'], .lineFeed⟩] ∧
      LineSource.lines? ⟨[.chunk [45, 97, 13, 13], .interrupted, .chunk [10, 120]], false⟩ =
        some [['-', 'a'], [], ['x']] ∧
      ∃ outcome,
        ParseOutcome.ofSource? 11
          ⟨[.chunk [45, 97, 13, 13], .interrupted, .chunk [10, 120]], false⟩ = some outcome ∧
        ParseOutcome.ofSource? 11 (.ofBytes [45, 97, 10, 10, 120, 10]) = some outcome := by
  have h : Separate [⟨['-', 'a'], .carriageReturn⟩, ⟨[], .both⟩, ⟨['x'], .missing⟩] := by
    decide
  have h' : Separate [⟨['-', 'a'], .lineFeed⟩, ⟨[], .lineFeed⟩, ⟨['x'], .lineFeed⟩] := by
    decide
  have hchunks : LineSource.Delivers [.chunk [45, 97, 13, 13], .interrupted, .chunk [10, 120]]
      (Utf8.encode (written [⟨['-', 'a'], .carriageReturn⟩, ⟨[], .both⟩, ⟨['x'], .missing⟩])) :=
    .chunk (by decide) (.interrupted (.chunk (by decide) .nil))
  obtain ⟨hread, hsame, -⟩ := lines?_written
  exact ⟨h, h', hread _ h _ hchunks,
    hsame 11 _ _ h h' rfl _ _ hchunks (LineSource.delivers_ofBytes _)⟩

end EndedLine

end LaunchOptions
